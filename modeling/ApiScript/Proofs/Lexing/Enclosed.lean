import ApiScript.Lexeme.Delimited

set_option autoImplicit false
set_option relaxedAutoImplicit false

/-!
The closer of a delimited text: what stands in front of it decides where it is, whatever stands
behind it, and characters that mean nothing between delimiters are passed one by one.
-/

namespace ApiScript.Enclosure

section Pass

variable {es : List Enclosure} {c : Char} {cs : List Char}

theorem closing?_nil {e : Enclosure} : closing? (e :: es) [] = none := by
  rw [closing?]

private theorem exists_cons_of_closing? {e : Enclosure} {n : Nat}
    (h : closing? (e :: es) cs = some n) :
    ∃ d r, cs = d :: r := by
  cases cs with
  | nil => simp [closing?_nil] at h
  | cons d r => exact ⟨d, r, rfl⟩

theorem closing?_text_pass (hslash : c ≠ '\\') (hquote : c ≠ '"')
    (hcode : c = '$' → cs.head? ≠ some '{') :
    closing? (.text :: es) (c :: cs) = (closing? (.text :: es) cs).map (· + 1) := by
  rw [closing?]
  · exact hquote
  · exact fun d r hc => absurd hc hslash
  · exact fun hc => absurd hc hslash
  · rintro r hc rfl
    exact hcode hc rfl

example : closing? [.text] ['a', '"'] = (closing? [.text] ['"']).map (· + 1) := by cbv

theorem closing?_quoted_pass {quote : Char} (hslash : c ≠ '\\') :
    closing? (.quoted quote :: es) (c :: cs) =
      (closing? (if c = quote then es else .quoted quote :: es) cs).map (· + 1) := by
  rw [closing?]
  · exact fun d r hc => absurd hc hslash
  · exact fun hc => absurd hc hslash

theorem closing?_code_pass {opened : Nat} (hopen : c ≠ '{') (hclose : c ≠ '}') (hdouble : c ≠ '"')
    (hsingle : c ≠ '\'') (hcomment : c = '/' → cs.head? ≠ some '/' ∧ cs.head? ≠ some '*') :
    closing? (.code opened :: es) (c :: cs) = (closing? (.code opened :: es) cs).map (· + 1) := by
  rw [closing?]
  · exact hopen
  · exact hclose
  · exact hdouble
  · exact hsingle
  · rintro r hc rfl
    exact (hcomment hc).1 rfl
  · rintro r hc rfl
    exact (hcomment hc).2 rfl

theorem closing?_blockComment_pass (h : c = '*' → cs.head? ≠ some '/') :
    closing? (.blockComment :: es) (c :: cs) = (closing? (.blockComment :: es) cs).map (· + 1) := by
  rw [closing?]
  rintro r hc rfl
  exact h hc rfl

end Pass

theorem map_add_map_add (o : Option Nat) (m k : Nat) :
    (o.map (· + m)).map (· + k) = o.map (· + (m + k)) := by
  rw [Option.map_map]
  congr 1
  funext n
  exact Nat.add_assoc n m k

/-- Where enclosures end, the scan goes on behind them with the enclosures around them. -/
theorem closing?_append {stack : List Enclosure} {cs : List Char} {n : Nat}
    (h : closing? stack cs = some n) (outer : List Enclosure) (rest : List Char) :
    closing? (stack ++ outer) (cs ++ rest) = (closing? outer (cs.drop n ++ rest)).map (· + n) := by
  -- Where the scan looks one character ahead, that character is of `cs`: no closer is found at its
  -- end.
  fun_induction closing? stack cs generalizing n with
  | case1 cs =>
    cases h
    simp
  | case2 | case4 | case9 => cases h
  | case7 es c r hpair _ hquote hcode ih =>
    obtain ⟨m, hm, rfl⟩ := Option.map_eq_some_iff.1 h
    obtain ⟨d, r, rfl⟩ := exists_cons_of_closing? hm
    rw [List.cons_append, List.cons_append, closing?_text_pass (fun hc => hpair d r hc rfl) hquote,
      List.drop_succ_cons, ← map_add_map_add, ← ih hm]
    · rfl
    · exact fun hc hd => hcode r hc (by rw [Option.some.inj hd])
  | case10 quote es c r hpair hlast ih =>
    obtain ⟨m, hm, rfl⟩ := Option.map_eq_some_iff.1 h
    have hslash : c ≠ '\\' := by
      intro hc
      cases r with
      | nil => exact hlast hc rfl
      | cons d r => exact hpair d r hc rfl
    rw [List.cons_append, List.cons_append, closing?_quoted_pass hslash, List.drop_succ_cons,
      ← map_add_map_add, ← ih hm]
    by_cases hc : c = quote <;> simp only [hc, ↓reduceIte, List.cons_append]
  | case17 opened es c r hopen hclose hdouble hsingle hline hblock ih =>
    obtain ⟨m, hm, rfl⟩ := Option.map_eq_some_iff.1 h
    obtain ⟨d, r, rfl⟩ := exists_cons_of_closing? hm
    rw [List.cons_append, List.cons_append, closing?_code_pass hopen hclose hdouble hsingle,
      List.drop_succ_cons, ← map_add_map_add, ← ih hm]
    · rfl
    · exact fun hc => ⟨fun hd => hline r hc (by rw [Option.some.inj hd]),
        fun hd => hblock r hc (by rw [Option.some.inj hd])⟩
  | case20 es c r hclose ih =>
    obtain ⟨m, hm, rfl⟩ := Option.map_eq_some_iff.1 h
    obtain ⟨d, r, rfl⟩ := exists_cons_of_closing? hm
    rw [List.cons_append, List.cons_append, closing?_blockComment_pass, List.drop_succ_cons,
      ← map_add_map_add, ← ih hm]
    · rfl
    · exact fun hc hd => hclose r hc (by rw [Option.some.inj hd])
  | case12 opened es r ih =>
    obtain ⟨m, hm, rfl⟩ := Option.map_eq_some_iff.1 h
    rw [List.cons_append, List.cons_append, closing?, List.drop_succ_cons, ← map_add_map_add,
      ← ih hm]
    by_cases hopened : opened = 0 <;> simp only [hopened, ↓reduceIte, List.cons_append]
  | case18 es c r ih =>
    obtain ⟨m, hm, rfl⟩ := Option.map_eq_some_iff.1 h
    rw [List.cons_append, List.cons_append, closing?, List.drop_succ_cons, ← map_add_map_add,
      ← ih hm]
    by_cases hc : c = '\n' <;> simp only [hc, ↓reduceIte, List.cons_append]
  | case3 es d r ih | case5 es r ih | case6 es r ih | case8 quote es d r ih | case11 opened es r ih
  | case13 opened es r ih | case14 opened es r ih | case15 opened es r ih | case16 opened es r ih
  | case19 es r ih =>
    obtain ⟨m, hm, rfl⟩ := Option.map_eq_some_iff.1 h
    simp only [List.cons_append, closing?, List.drop_succ_cons, ← map_add_map_add, ← ih hm]

/-- What no scan has reached yet does not move a closer. -/
theorem closing?_append_of_some {stack : List Enclosure} {cs : List Char} {n : Nat}
    (h : closing? stack cs = some n) (rest : List Char) : closing? stack (cs ++ rest) = some n := by
  have happend := closing?_append h [] rest
  rw [List.append_nil] at happend
  rw [happend, closing?, Option.map_some, Nat.zero_add]

/-- Enclosures with others around them end where they do alone, and the others end behind them. -/
theorem exists_closing?_of_append {stack outer : List Enclosure} {cs : List Char} {m : Nat}
    (h : closing? (stack ++ outer) cs = some m) :
    ∃ n k, m = n + k ∧ closing? stack (cs.take n) = some n ∧
      closing? outer (cs.drop n) = some k := by
  -- Where the scan looks one character ahead, the characters up to the closer show it no other than
  -- all do.
  have hhead {d : Char} {r : List Char} (n : Nat) (hd : (r.take n).head? = some d) :
      r.head? = some d := by
    rw [List.head?_take] at hd
    split at hd
    · cases hd
    · exact hd
  fun_induction closing? stack cs generalizing m with
  | case1 cs => exact ⟨0, m, (Nat.zero_add m).symm, rfl, h⟩
  | case2 =>
    rw [List.cons_append, closing?_nil] at h
    cases h
  | case4 | case9 =>
    rw [List.cons_append, closing?] at h
    cases h
  | case7 es c r hpair hlast hquote hpaired ih =>
    have hslash : c ≠ '\\' := by
      intro hc
      cases r with
      | nil => exact hlast hc rfl
      | cons d r => exact hpair d r hc rfl
    have hcode (hc : c = '$') (hd : r.head? = some '{') : False := by
      obtain ⟨r, rfl⟩ := List.head?_eq_some_iff.1 hd
      exact hpaired r hc rfl
    rw [List.cons_append, closing?_text_pass hslash hquote hcode] at h
    obtain ⟨_, hm, rfl⟩ := Option.map_eq_some_iff.1 h
    obtain ⟨n, k, rfl, hn, hk⟩ := ih hm
    refine ⟨n + 1, k, Nat.add_right_comm n k 1, ?_, hk⟩
    rw [List.take_succ_cons, closing?_text_pass hslash hquote fun hc hd => hcode hc (hhead n hd),
      hn, Option.map_some]
  | case10 quote es c r hpair hlast ih =>
    have hslash : c ≠ '\\' := by
      intro hc
      cases r with
      | nil => exact hlast hc rfl
      | cons d r => exact hpair d r hc rfl
    have houter : (if c = quote then es ++ outer else .quoted quote :: (es ++ outer)) =
        (if c = quote then es else .quoted quote :: es) ++ outer := by split <;> rfl
    rw [List.cons_append, closing?_quoted_pass hslash, houter] at h
    obtain ⟨_, hm, rfl⟩ := Option.map_eq_some_iff.1 h
    obtain ⟨n, k, rfl, hn, hk⟩ := ih hm
    refine ⟨n + 1, k, Nat.add_right_comm n k 1, ?_, hk⟩
    rw [List.take_succ_cons, closing?_quoted_pass hslash, hn, Option.map_some]
  | case12 opened es r ih =>
    have houter : (if opened = 0 then es ++ outer else .code (opened - 1) :: (es ++ outer)) =
        (if opened = 0 then es else .code (opened - 1) :: es) ++ outer := by split <;> rfl
    rw [List.cons_append, closing?, houter] at h
    obtain ⟨_, hm, rfl⟩ := Option.map_eq_some_iff.1 h
    obtain ⟨n, k, rfl, hn, hk⟩ := ih hm
    refine ⟨n + 1, k, Nat.add_right_comm n k 1, ?_, hk⟩
    rw [List.take_succ_cons, closing?, hn, Option.map_some]
  | case17 opened es c r hopen hclose hdouble hsingle hline hblock ih =>
    have hcomment (hc : c = '/') : r.head? ≠ some '/' ∧ r.head? ≠ some '*' := by
      refine ⟨fun hd => ?_, fun hd => ?_⟩
      · obtain ⟨r, rfl⟩ := List.head?_eq_some_iff.1 hd
        exact hline r hc rfl
      · obtain ⟨r, rfl⟩ := List.head?_eq_some_iff.1 hd
        exact hblock r hc rfl
    rw [List.cons_append, closing?_code_pass hopen hclose hdouble hsingle hcomment] at h
    obtain ⟨_, hm, rfl⟩ := Option.map_eq_some_iff.1 h
    obtain ⟨n, k, rfl, hn, hk⟩ := ih hm
    have hcomment' (hc : c = '/') : (r.take n).head? ≠ some '/' ∧ (r.take n).head? ≠ some '*' :=
      ⟨fun hd => (hcomment hc).1 (hhead n hd), fun hd => (hcomment hc).2 (hhead n hd)⟩
    refine ⟨n + 1, k, Nat.add_right_comm n k 1, ?_, hk⟩
    rw [List.take_succ_cons, closing?_code_pass hopen hclose hdouble hsingle hcomment', hn,
      Option.map_some]
  | case18 es c r ih =>
    have houter : (if c = '\n' then es ++ outer else .lineComment :: (es ++ outer)) =
        (if c = '\n' then es else .lineComment :: es) ++ outer := by split <;> rfl
    rw [List.cons_append, closing?, houter] at h
    obtain ⟨_, hm, rfl⟩ := Option.map_eq_some_iff.1 h
    obtain ⟨n, k, rfl, hn, hk⟩ := ih hm
    refine ⟨n + 1, k, Nat.add_right_comm n k 1, ?_, hk⟩
    rw [List.take_succ_cons, closing?, hn, Option.map_some]
  | case20 es c r hstar ih =>
    have hclose (hc : c = '*') (hd : r.head? = some '/') : False := by
      obtain ⟨r, rfl⟩ := List.head?_eq_some_iff.1 hd
      exact hstar r hc rfl
    rw [List.cons_append, closing?_blockComment_pass hclose] at h
    obtain ⟨_, hm, rfl⟩ := Option.map_eq_some_iff.1 h
    obtain ⟨n, k, rfl, hn, hk⟩ := ih hm
    refine ⟨n + 1, k, Nat.add_right_comm n k 1, ?_, hk⟩
    rw [List.take_succ_cons, closing?_blockComment_pass fun hc hd => hclose hc (hhead n hd), hn,
      Option.map_some]
  | case3 es d r ih | case5 es r ih | case6 es r ih | case8 quote es d r ih | case11 opened es r ih
  | case13 opened es r ih | case14 opened es r ih | case15 opened es r ih | case16 opened es r ih
  | case19 es r ih =>
    simp only [List.cons_append, closing?] at h
    obtain ⟨_, hm, rfl⟩ := Option.map_eq_some_iff.1 h
    obtain ⟨n, k, rfl, hn, hk⟩ := ih hm
    refine ⟨_, k, Nat.add_right_comm n k _, ?_, hk⟩
    simp only [List.take_succ_cons, closing?, hn, Option.map_some]

theorem closing?_take {stack : List Enclosure} {cs : List Char} {n : Nat}
    (h : closing? stack cs = some n) :
    closing? stack (cs.take n) = some n := by
  rw [← List.append_nil stack] at h
  obtain ⟨n, k, rfl, hn, hk⟩ := exists_closing?_of_append h
  rw [closing?] at hk
  cases hk
  exact hn

theorem closing?_le {stack : List Enclosure} {cs : List Char} {n : Nat}
    (h : closing? stack cs = some n) :
    n ≤ cs.length := by
  fun_induction closing? stack cs generalizing n with
  | case1 =>
    cases h
    exact Nat.zero_le _
  | case2 | case4 | case9 => cases h
  | _ =>
    rename_i ih
    obtain ⟨m, hm, rfl⟩ := Option.map_eq_some_iff.1 h
    have := ih hm
    simp only [List.length_cons]
    omega

def closer : Enclosure → Char
  | text => '"'
  | quoted quote => quote
  | code _ => '}'
  | lineComment => '\n'
  | blockComment => '/'

theorem closing?_closer {stack : List Enclosure} {cs : List Char} {n : Nat} {last : Char}
    (h : closing? stack cs = some n) (hlast : stack.getLast?.map closer = some last) :
    ∃ front, cs.take n = front ++ [last] := by
  have hpass (front : List Char) {cs : List Char} {m : Nat}
    (h : ∃ left, cs.take m = left ++ [last]) :
      ∃ left, (front ++ cs).take (m + front.length) = left ++ [last] := by
    obtain ⟨left, hleft⟩ := h
    exact ⟨front ++ left, by
      rw [Nat.add_comm, List.take_length_add_append, hleft, List.append_assoc]⟩
  have hlevel {k : Nat} {es : List Enclosure} (h : (code k :: es).getLast?.map closer = some last)
    (m : Nat) :
      (code m :: es).getLast?.map closer = some last := by
    cases es with
    | nil => exact h
    | cons => exact h
  -- What ends an enclosure ends all of them, or the scan goes on with those around it.
  have hclose {e : Enclosure} {es : List Enclosure} {cs : List Char} {m : Nat} (front : List Char)
    (hm : closing? es cs = some m)
      (hlast : (e :: es).getLast?.map closer = some last) (hfront : front.getLast? = some e.closer)
      (ih : es.getLast?.map closer = some last → ∃ left, cs.take m = left ++ [last]) :
      ∃ left, (front ++ cs).take (m + front.length) = left ++ [last] := by
    cases es with
    | nil =>
      rw [closing?] at hm
      cases hm
      obtain ⟨left, rfl⟩ := List.getLast?_eq_some_iff.1 hfront
      rw [Nat.zero_add, List.take_left]
      exact ⟨left, congrArg (left ++ [·]) (Option.some.inj hlast : e.closer = last)⟩
    | cons => exact hpass front (ih hlast)
  fun_induction closing? stack cs generalizing n with
  | case1 => cases hlast
  | case2 | case4 | case9 => cases h
  | case3 es d r ih | case6 es r ih | case7 es d r _ _ _ _ ih | case8 _ es d r ih | case13 _ es r ih
  | case14 _ es r ih | case15 _ es r ih | case16 _ es r ih | case17 _ es d r _ _ _ _ _ _ ih
  | case20 es d r _ ih =>
    -- The outermost enclosure stays as it is.
    obtain ⟨m, hm, rfl⟩ := Option.map_eq_some_iff.1 h
    first
    | exact hpass [_] (ih hm hlast)
    | exact hpass [_, _] (ih hm hlast)
  | case5 es r ih =>
    obtain ⟨m, hm, rfl⟩ := Option.map_eq_some_iff.1 h
    exact hclose ['"'] hm hlast rfl (ih hm)
  | case19 es r ih =>
    obtain ⟨m, hm, rfl⟩ := Option.map_eq_some_iff.1 h
    exact hclose ['*', '/'] hm hlast rfl (ih hm)
  | case10 quote es c r _ _ ih | case18 es c r ih =>
    obtain ⟨m, hm, rfl⟩ := Option.map_eq_some_iff.1 h
    split at hm
    · rename_i hc
      rw [if_pos hc] at ih
      exact hclose [c] hm hlast (congrArg some hc) (ih hm)
    · rename_i hc
      rw [if_neg hc] at ih
      exact hpass [c] (ih hm hlast)
  | case11 level es r ih =>
    obtain ⟨m, hm, rfl⟩ := Option.map_eq_some_iff.1 h
    exact hpass ['{'] (ih hm (hlevel hlast _))
  | case12 level es r ih =>
    obtain ⟨m, hm, rfl⟩ := Option.map_eq_some_iff.1 h
    split at hm
    · rename_i hc
      rw [if_pos hc] at ih
      exact hclose ['}'] hm hlast rfl (ih hm)
    · rename_i hc
      rw [if_neg hc] at ih
      exact hpass ['}'] (ih hm (hlevel hlast _))

theorem closing?_pos {e : Enclosure} {es : List Enclosure} {cs : List Char} {n : Nat}
    (h : closing? (e :: es) cs = some n) : 0 < n := by
  have hlast := List.getLast?_eq_some_getLast (List.cons_ne_nil e es)
  obtain ⟨front, hfront⟩ := closing?_closer h (congrArg (Option.map closer) hlast)
  rw [Nat.pos_iff_ne_zero]
  rintro rfl
  exact List.append_ne_nil_of_right_ne_nil front (List.cons_ne_nil _ _) hfront.symm

end ApiScript.Enclosure
