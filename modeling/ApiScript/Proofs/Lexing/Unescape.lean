import ApiScript.Proofs.Lexing.Body

set_option autoImplicit false
set_option relaxedAutoImplicit false

/-!
Decoding a body part by part. An escape sequence that is complete is read the same whatever stands
behind it, so a body whose front is decoded has the text of the front and then that of the rest, or
the error of the rest.
-/

namespace ApiScript.Quoted

section Escape

private theorem runLength_closed {cs behind : List Char}
    (h : cs.drop (Lexeme.runLength Lexeme.isHexDigit cs) = '}' :: behind) (rest : List Char) :
    let k := Lexeme.runLength Lexeme.isHexDigit cs
    cs.take (k + 1) = cs.take k ++ ['}'] ∧ (cs.take k).length = k ∧
      Lexeme.runLength Lexeme.isHexDigit (cs.take k ++ '}' :: rest) = k := by
  intro k
  have hdigits : cs.take k = cs.takeWhile Lexeme.isHexDigit := Lexeme.take_takeWhile_length ..
  refine ⟨?_, by rw [hdigits]; rfl, ?_⟩
  · rw [List.take_add, h]
    rfl
  · rw [hdigits, Lexeme.runLength, Lexeme.takeWhile_append_of_all List.all_takeWhile]
    · rfl
    · rintro d ⟨⟩
      decide

theorem escape_take_append {cs : List Char} {escaped : Escaped} {n : Nat}
    (h : escape cs = .ok (escaped, n)) (rest : List Char) :
    escape (cs.take n ++ rest) = .ok (escaped, n) := by
  unfold escape at h
  split at h
  · cases h
  · rename_i cs
    dsimp only at h
    split at h
    · cases h
    · rename_i hdigits
      have htake : (cs.take 2 ++ rest).take 2 = cs.take 2 :=
        List.take_left' (hexDigits_of_runLength hdigits).1
      cases h
      rw [List.take_succ_cons, List.cons_append, escape]
      simp only [htake]
      rw [if_neg hdigits]
  · rename_i cs
    dsimp only at h
    split at h
    · cases h
    · rename_i hdigits
      obtain ⟨behind, hclosed⟩ :=
        List.head?_eq_some_iff.1 (Classical.byContradiction fun hopen =>
          hdigits (.inr (.inr hopen)))
      obtain ⟨hbrace, hlength, hrun⟩ := runLength_closed hclosed rest
      obtain rfl := hexChar_extent h
      rw [List.take_succ_cons, List.take_succ_cons, hbrace, List.cons_append, List.cons_append,
        List.append_assoc, List.singleton_append, escape]
      simp only [hrun, List.drop_left' hlength, List.take_left' hlength, List.head?_cons,
        not_true_eq_false, or_false]
      rw [if_neg fun hcount => hdigits (hcount.imp_right .inl), h]
  · rename_i cs hbrace
    dsimp only at h
    split at h
    · cases h
    · rename_i hdigits
      have hlength := (hexDigits_of_runLength hdigits).1
      obtain rfl := hexChar_extent h
      have hfirst (ds : List Char) : cs.take 4 ++ rest ≠ '{' :: ds := by
        cases cs with
        | nil => simp at hlength
        | cons c cs => exact fun hsame => hbrace cs (by rw [(List.cons.inj hsame).1])
      rw [List.take_succ_cons, List.cons_append, escape]
      · simp only [List.take_left' hlength]
        rw [if_neg hdigits, h]
      · exact hfirst
  · rename_i c cs hbyte _ hunbraced
    split at h
    · rename_i hletter
      cases h
      rw [List.take_succ_cons, List.take_zero, List.singleton_append, escape]
      · rw [hletter]
      · exact hbyte
      · exact fun _ hc _ => hunbraced hc
      · exact hunbraced
    · cases h

end Escape

section Elements

variable {offset : Nat} {body front behind : List Char} {es : List Element} {e : LexicalError}

private theorem elements_plain {c : Char} {cs : List Char} (hslash : c ≠ '\\') :
    elements none offset (c :: cs) = (elements none (offset + c.utf8Size) cs).map (.char c :: ·) :=
  elements_char hslash fun hcoded => absurd rfl hcoded

/-- What is wrong with an escape sequence whose backslash stands at `offset`, in front of
`behind`. -/
def Malformed (offset : Nat) (behind : List Char) (e : LexicalError) : Prop :=
  ∃ rule n, escape behind = .error (rule, n) ∧
    e = ⟨.invalidEscape (String.ofList ('\\' :: behind.take n)) rule,
    ⟨offset, offset + Text.byteSize ('\\' :: behind.take n)⟩⟩

private theorem elements_malformed (h : Malformed offset behind e) :
    elements none offset ('\\' :: behind) = .error e := by
  obtain ⟨rule, n, hescape, rfl⟩ := h
  rw [elements, List.length_cons, elementsWithin_escape, hescape, Text.byteSize_cons,
    ← Nat.add_assoc]
  rfl

private theorem elements_sequence {written rest : List Char} {escaped : Escaped}
    (h : ∀ ds, escape (written ++ ds) = .ok (escaped, written.length)) :
    elements none offset ('\\' :: (written ++ rest)) =
      (elements none (offset + Text.byteSize ('\\' :: written)) rest).map
        (.ofEscaped escaped :: ·) := by
  have hrest : rest.length ≤ (written ++ rest).length := by simp
  rw [elements, List.length_cons, elementsWithin_escape, h, Text.byteSize_cons, ← Nat.add_assoc]
  simp only [List.take_left, List.drop_left, elementsWithin_eq_elements hrest]
  rfl

private theorem body_induction {motive : Nat → List Char → Prop} (nil : ∀ offset, motive offset [])
    (malformed : ∀ offset behind e, Malformed offset behind e → motive offset ('\\' :: behind))
    (sequence : ∀ offset written rest escaped,
    (∀ ds, escape (written ++ ds) = .ok (escaped, written.length)) →
      motive (offset + Text.byteSize ('\\' :: written)) rest →
      motive offset ('\\' :: (written ++ rest)))
    (char : ∀ offset c rest, c ≠ '\\' → motive (offset + c.utf8Size) rest →
      motive offset (c :: rest)) (offset : Nat) (body : List Char) : motive offset body := by
  induction hsize : body.length using Nat.strongRecOn generalizing offset body with
  | ind size ih =>
    subst hsize
    cases body with
    | nil => exact nil offset
    | cons c cs =>
      by_cases hslash : c = '\\'
      · subst hslash
        cases hescape : escape cs with
        | error r => exact malformed offset cs _ ⟨r.1, r.2, hescape, rfl⟩
        | ok r =>
          obtain ⟨escaped, n⟩ := r
          obtain ⟨letter, tail, rest, rfl, rfl, -⟩ := escape_covers hescape
          have hwritten (ds : List Char) :
              escape (letter :: tail ++ ds) = .ok (escaped, (letter :: tail).length) := by
            have hsame := escape_take_append hescape ds
            rwa [List.take_succ_cons, List.take_left] at hsame
          refine sequence offset (letter :: tail) rest escaped hwritten
            (ih rest.length ?_ _ rest rfl)
          simp only [List.length_cons, List.length_append]
          omega
      · exact char offset c cs hslash (ih cs.length (Nat.lt_succ_self _) _ cs rfl)

private theorem elements_append (h : elements none offset front = .ok es) (behind : List Char) :
    elements none offset (front ++ behind) =
      (elements none (offset + Text.byteSize front) behind).map (es ++ ·) := by
  induction offset, front using body_induction generalizing es with
  | nil offset =>
    cases h
    exact (congrFun Except.map_id (elements none offset behind)).symm
  | malformed offset rest e hmalformed =>
    rw [elements_malformed hmalformed] at h
    cases h
  | sequence offset written rest escaped hescape ih =>
    rw [elements_sequence hescape] at h
    obtain ⟨es, hes, rfl⟩ := ok_of_map h
    rw [List.cons_append, List.append_assoc, elements_sequence hescape, ih hes, Nat.add_assoc,
      ← Text.byteSize_append, List.cons_append]
    cases elements none _ behind <;> rfl
  | char offset c rest hslash ih =>
    rw [elements_plain hslash] at h
    obtain ⟨es, hes, rfl⟩ := ok_of_map h
    rw [List.cons_append, elements_plain hslash, ih hes, Nat.add_assoc, ← Text.byteSize_cons]
    cases elements none _ behind <;> rfl

private theorem elements_error (h : elements none offset body = .error e) :
    ∃ front behind es, body = front ++ '\\' :: behind ∧
    elements none offset front = .ok es ∧ Malformed (offset + Text.byteSize front) behind e := by
  induction offset, body using body_induction with
  | nil offset => cases h
  | malformed offset behind d hmalformed =>
    rw [elements_malformed hmalformed] at h
    cases h
    exact ⟨[], behind, [], rfl, rfl, hmalformed⟩
  | sequence offset written rest escaped hescape ih =>
    rw [elements_sequence hescape] at h
    obtain ⟨front, behind, es, rfl, hes, hmalformed⟩ := ih (error_of_map h)
    refine ⟨'\\' :: (written ++ front), behind, .ofEscaped escaped :: es, ?_, ?_, ?_⟩
    · rw [List.cons_append, List.append_assoc]
    · rw [elements_sequence hescape, hes]
      rfl
    · rwa [Nat.add_assoc, ← Text.byteSize_append] at hmalformed
  | char offset c rest hslash ih =>
    rw [elements_plain hslash] at h
    obtain ⟨front, behind, es, rfl, hes, hmalformed⟩ := ih (error_of_map h)
    refine ⟨c :: front, behind, .char c :: es, rfl, ?_, ?_⟩
    · rw [elements_plain hslash, hes]
      rfl
    · rwa [Nat.add_assoc] at hmalformed

end Elements

/-- A body whose front is decoded has the text of the front and then that of the rest, or the error
of the rest. So the error of a body is that of the first escape sequence in it that is malformed, at
its own place: all that is in front of the sequence is decoded. -/
theorem unescape_append (base : Nat) :
    (∀ a b x, unescape a base = .ok x →
      unescape (a ++ b) base = (unescape b (base + a.utf8ByteSize)).map (x ++ ·)) ∧
    ∀ body e, unescape body base = .error e ↔ ∃ (front : String) (behind : List Char) (x : String),
      body = front ++ String.ofList ('\\' :: behind) ∧ unescape front base = .ok x ∧
        Malformed (base + front.utf8ByteSize) behind e := by
  have happend (a b x : String) (h : unescape a base = .ok x) :
      unescape (a ++ b) base = (unescape b (base + a.utf8ByteSize)).map (x ++ ·) := by
    rw [unescape_eq] at h
    obtain ⟨es, hes, rfl⟩ := ok_of_map h
    rw [unescape_eq, unescape_eq, String.toList_append, elements_append hes, ← Text.utf8ByteSize_eq]
    cases elements none _ b.toList with
    | error e => rfl
    | ok ds => simp [Except.map]
  refine ⟨happend, fun body e => ⟨fun h => ?_, ?_⟩⟩
  · obtain ⟨front, behind, es, hbody, hes, hmalformed⟩ :=
      elements_error (error_of_map (unescape_eq body base ▸ h))
    refine ⟨String.ofList front, behind, String.ofList (es.filterMap Element.char?), ?_, ?_, ?_⟩
    · rw [← String.ofList_append, ← hbody, String.ofList_toList]
    · rw [unescape_eq, String.toList_ofList, hes]
      rfl
    · rwa [Text.utf8ByteSize_ofList]
  · rintro ⟨front, behind, x, rfl, hfront, hmalformed⟩
    rw [happend front _ x hfront, unescape_eq, String.toList_ofList, elements_malformed hmalformed]
    rfl

/-- A character of two bytes and a sequence in front of a further digit, and then a sequence that is
complete or one that is not. -/
theorem unescape_append_of_digit :
    let a := "é\\x41"
    let e : LexicalError := ⟨.invalidEscape "\\u\x7b" .bracedHexDigits, ⟨12, 15⟩⟩
    unescape a 5 = .ok "éA" ∧ unescape (a ++ "1\\n") 5 = .ok "éA1\n" ∧
    unescape (a ++ "1\\u\x7b") 5 = .error e ∧
      ∃ (front : String) (behind : List Char) (x : String), a ++ "1\\u\x7b" = front ++
        String.ofList ('\\' :: behind) ∧
        unescape front 5 = .ok x ∧ Malformed (5 + front.utf8ByteSize) behind e := by
  intro a e
  have ha : unescape a 5 = .ok "éA" := by decide
  obtain ⟨happend, herror⟩ := unescape_append 5
  have hfails : unescape (a ++ "1\\u\x7b") 5 = .error e := by
    rw [happend a _ _ ha]
    decide
  refine ⟨ha, ?_, hfails, (herror _ e).1 hfails⟩
  rw [happend a _ _ ha]
  decide

end ApiScript.Quoted
