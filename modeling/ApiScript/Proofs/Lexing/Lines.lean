import ApiScript.Proofs.Lexing.Enclosed
import ApiScript.Proofs.Lexing.Interpolated
import ApiScript.Proofs.Spans.Placed

set_option autoImplicit false
set_option relaxedAutoImplicit false

/-!
A blank ends the lexeme in front of it, whatever follows the blank; only a line comment goes on. So
a line end parts a text: what is in front of it is read as it is alone, and so is what is behind it,
in its place.
-/

namespace ApiScript

private theorem takeWhile_append_of_neg {α : Type} {p : α → Bool} {x : α} (h : p x = false)
    (xs ys : List α) :
    (xs ++ x :: ys).takeWhile p = xs.takeWhile p := by
  induction xs with
  | nil => rw [List.nil_append, List.takeWhile_cons_of_neg (by simp [h]), List.takeWhile_nil]
  | cons a xs ih => rw [List.cons_append, List.takeWhile_cons, List.takeWhile_cons, ih]

private theorem isPrefixOf_append_of_not_mem {word : List Char} {c : Char} (h : c ∉ word)
    (cs ds : List Char) :
    word.isPrefixOf (cs ++ c :: ds) = word.isPrefixOf cs := by
  induction word generalizing cs with
  | nil => rw [List.isPrefixOf_nil_left, List.isPrefixOf_nil_left]
  | cons d word ih =>
    cases cs with
    | nil =>
      have hne : (d == c) = false := beq_eq_false_iff_ne.2 (List.ne_of_not_mem_cons h).symm
      rw [List.nil_append, List.isPrefixOf_cons_cons, hne, Bool.false_and]
      rfl
    | cons e cs =>
      simp only [List.cons_append, List.isPrefixOf_cons_cons, ih (List.not_mem_of_not_mem_cons h)]

private theorem head?_append_of_ne {c b : Char} (h : c ≠ b) (cs ds : List Char) :
    (cs ++ b :: ds).head? = some c ↔ cs.head? = some c := by
  cases cs with
  | nil => simpa using fun hc => h hc.symm
  | cons => rfl

namespace Lexeme

/-- Outside comments and strings the character is in no lexeme. -/
structure Apart (b : Char) : Prop where
  digit : b.isDigit = false ∧ isHexDigit b = false ∧ isOctalDigit b = false ∧
    isBinaryDigit b = false
  radix : radixDigit? b = none
  number : b ≠ '.' ∧ b ≠ '+' ∧ b ≠ '-' ∧ b ≠ 'e' ∧ b ≠ 'E' ∧ b ≠ '0'
  opener : '"' ≠ b ∧ '/' ≠ b ∧ '*' ≠ b
  word : isWordPart b = false
  unit : ∀ u ∈ NumberClass.units, b ∉ u.1.toList
  symbol : ∀ s ∈ Symbol.byLength, b ∉ s.spelling.toList

theorem apart_of_isBlank {b : Char} (hb : isBlank b = true) : Apart b := by
  simp only [isBlank, Bool.or_eq_true, beq_iff_eq] at hb
  rcases hb with (((rfl | rfl) | rfl) | rfl) | rfl <;>
    exact ⟨by decide, rfl, by decide, by decide, by decide, by decide, by decide⟩

private theorem runLength_le (cs : List Char) (digit : Char → Bool) :
    runLength digit cs ≤ cs.length :=
  (List.takeWhile_prefix _).length_le

section Blank

variable {b : Char} (hb : Apart b) (cs ds : List Char)

private theorem runLength_blank {digit : Char → Bool} (h : digit b = false) :
    runLength digit (cs ++ b :: ds) = runLength digit cs := by
  rw [runLength, runLength, takeWhile_append_of_neg h]

include hb

private theorem radixDigit?_blank {letter : Char} {digit : Char → Bool}
    (h : radixDigit? letter = some digit) :
    digit b = false := by
  obtain ⟨-, hhex, hoctal, hbinary⟩ := hb.digit
  unfold radixDigit? at h
  split at h <;> cases h <;> assumption

private theorem radixLength?_blank : radixLength? (cs ++ b :: ds) = radixLength? cs := by
  match cs with
  | [] => simp [radixLength?, hb.number]
  | [c] =>
    by_cases hc : c = '0'
    · subst hc
      simp [radixLength?, hb.radix]
    · simp [radixLength?, hc]
  | c :: letter :: cs =>
    by_cases hc : c = '0'
    · subst hc
      simp only [List.cons_append, radixLength?]
      cases hdigit : radixDigit? letter with
      | none => rfl
      | some digit =>
        simp only [Option.bind_some, runLength_blank cs ds (radixDigit?_blank hb hdigit)]
    · simp [radixLength?, hc]

private theorem fractionLength_blank : fractionLength (cs ++ b :: ds) = fractionLength cs := by
  cases cs with
  | nil => simp [fractionLength, hb.number]
  | cons c cs =>
    by_cases hc : c = '.'
    · subst hc
      simp only [List.cons_append, fractionLength, runLength_blank cs ds hb.digit.1]
    · simp [fractionLength, hc]

private theorem signLength_blank : signLength (cs ++ b :: ds) = signLength cs := by
  cases cs with
  | nil => simp [signLength, hb.number]
  | cons c cs =>
    by_cases hplus : c = '+' <;> by_cases hminus : c = '-' <;> simp [signLength, hplus, hminus]

private theorem exponentLength_blank : exponentLength (cs ++ b :: ds) = exponentLength cs := by
  have hdigits (cs : List Char) : runLength Char.isDigit ((cs ++ b :: ds).drop (signLength cs)) =
      runLength Char.isDigit (cs.drop (signLength cs)) := by
    rw [List.drop_append_of_le_length (inert_signLength cs).le, runLength_blank _ _ hb.digit.1]
  cases cs with
  | nil => simp [exponentLength, hb.number]
  | cons c cs =>
    by_cases hlower : c = 'e' <;> by_cases hupper : c = 'E' <;>
      simp [exponentLength, hlower, hupper, hdigits, signLength_blank hb]

private theorem unit?_blank : NumberClass.unit? (cs ++ b :: ds) = NumberClass.unit? cs := by
  have hfind (us : List (String × NumberClass)) (hus : ∀ u ∈ us, b ∉ u.1.toList) :
      us.find? (·.1.toList.isPrefixOf (cs ++ b :: ds)) = us.find? (·.1.toList.isPrefixOf cs) := by
    induction us with
    | nil => rfl
    | cons u us ih =>
      obtain ⟨hu, hus⟩ := List.forall_mem_cons.1 hus
      rw [List.find?_cons, List.find?_cons, isPrefixOf_append_of_not_mem hu, ih hus]
  simp only [NumberClass.unit?, hfind _ hb.unit]

private theorem numberLength_blank : numberLength (cs ++ b :: ds) = numberLength cs := by
  have hwhole := runLength_le cs Char.isDigit
  have hfraction := (inert_fractionLength (cs.drop (runLength Char.isDigit cs))).le
  have hdecimal : runLength Char.isDigit cs + fractionLength (cs.drop (runLength Char.isDigit cs)) ≤
      cs.length := by
    rw [List.length_drop] at hfraction
    omega
  simp only [numberLength, radixLength?_blank hb, runLength_blank cs ds hb.digit.1,
    List.drop_append_of_le_length hwhole, fractionLength_blank hb,
    List.drop_append_of_le_length hdecimal, unit?_blank hb, exponentLength_blank hb]

private theorem symbol?_blank : symbol? (cs ++ b :: ds) = symbol? cs := by
  have hplain (s : Symbol) : b ∉ s.spelling.toList := hb.symbol s (by cases s <;> decide)
  simp only [symbol?, isPrefixOf_append_of_not_mem (hplain _)]

omit hb in
private theorem scanDelimited_blank {make : String → Lexeme} {fault : LexicalFault}
    (enclosure : Enclosure) {opener : Nat} (hfault : fault.isFatal = true)
    (hopener : opener ≤ cs.length)
    (h : ∀ f, (scanDelimited make fault enclosure opener cs).1 = .error f → f.isFatal = false) :
    scanDelimited make fault enclosure opener (cs ++ b :: ds) =
      scanDelimited make fault enclosure opener cs := by
  unfold scanDelimited at h ⊢
  split at h
  · rename_i n hn
    have hle : opener + n ≤ cs.length := by
      have := Enclosure.closing?_le hn
      rw [List.length_drop] at this
      omega
    rw [List.drop_append_of_le_length hopener, Enclosure.closing?_append_of_some hn]
    simp only [List.take_append_of_le_length hle]
  · rw [h fault rfl] at hfault
    cases hfault

/-- A lexeme in front of a blank is the same whatever follows the blank; but a line comment goes on
up to a line end. -/
theorem scan_blank (c : Char) (h : ∀ f, (scan c cs).1 = .error f → f.isFatal = false)
    (hend : c = '/' ∧ cs.head? = some '/' → b = '\n' ∨ '\n' ∈ cs) :
    scan c (cs ++ b :: ds) = scan c cs := by
  have htext : c :: (cs ++ b :: ds) = (c :: cs) ++ b :: ds := rfl
  have hone : 1 ≤ (c :: cs).length := Nat.succ_le_succ (Nat.zero_le _)
  have htwo {d : Char} (h : cs.head? = some d) : 2 ≤ (c :: cs).length := by
    obtain ⟨cs, rfl⟩ := List.head?_eq_some_iff.1 h
    exact Nat.succ_le_succ (Nat.succ_le_succ (Nat.zero_le _))
  unfold scan at h ⊢
  simp only [htext, head?_append_of_ne hb.opener.1, head?_append_of_ne hb.opener.2.1,
    head?_append_of_ne hb.opener.2.2]
  by_cases hdigit : c.isDigit = true
  · rw [if_pos hdigit, if_pos hdigit, numberLength_blank hb]
    simp only [List.take_append_of_le_length (inert_numberLength _).le]
  rw [if_neg hdigit] at h ⊢
  rw [if_neg hdigit]
  by_cases hdouble : c = '"'
  · rw [if_pos hdouble] at h ⊢
    rw [if_pos hdouble, scanDelimited_blank _ _ _ rfl hone h]
  rw [if_neg hdouble] at h ⊢
  rw [if_neg hdouble]
  by_cases hsingle : c = '\''
  · rw [if_pos hsingle] at h ⊢
    rw [if_pos hsingle, scanDelimited_blank _ _ _ rfl hone h]
  rw [if_neg hsingle] at h ⊢
  rw [if_neg hsingle]
  by_cases hbytes : c = 'b' ∧ cs.head? = some '"'
  · rw [if_pos hbytes] at h ⊢
    rw [if_pos hbytes, scanDelimited_blank _ _ _ rfl (htwo hbytes.2) h]
  rw [if_neg hbytes] at h ⊢
  rw [if_neg hbytes]
  by_cases hword : isWordStart c = true
  · rw [if_pos hword, if_pos hword, takeWhile_append_of_neg hb.word]
  rw [if_neg hword] at h ⊢
  rw [if_neg hword]
  by_cases hline : c = '/' ∧ cs.head? = some '/'
  · rw [if_pos hline, if_pos hline]
    rcases hend hline with rfl | hmem
    · rw [takeWhile_append_of_neg (by decide)]
    · obtain ⟨front, behind, hsplit⟩ := List.append_of_mem (List.mem_cons_of_mem c hmem)
      rw [hsplit, List.append_assoc, List.cons_append, takeWhile_append_of_neg (by decide),
        takeWhile_append_of_neg (by decide)]
  rw [if_neg hline] at h ⊢
  rw [if_neg hline]
  by_cases hblock : c = '/' ∧ cs.head? = some '*'
  · rw [if_pos hblock] at h ⊢
    rw [if_pos hblock, scanDelimited_blank _ _ _ rfl (htwo hblock.2) h]
  rw [if_neg hblock, if_neg hblock, symbol?_blank hb]

end Blank

end Lexeme

theorem Span.touches_shift (a b : Span) (k : Nat) :
    (a.shift k).touches (b.shift k) = a.touches b := by
  rw [Bool.eq_iff_iff]
  simp [Span.touches, Span.shift]

def LexicalError.respan (f : Span → Span) (e : LexicalError) : LexicalError := ⟨e.fault, f e.span⟩

namespace Lexer

private theorem found_shift (offset k : Nat) (c : Char) (cs : List Char) :
    itemToken (found (offset + k) c cs) = (itemToken (found offset c cs)).respan (Span.shift k) ∧
      itemErrors (found (offset + k) c cs) = (itemErrors (found offset c cs)).map
        (.respan (Span.shift k)) := by
  unfold found
  cases (Lexeme.scan c cs).1 <;>
    simp [itemToken, itemErrors, Token.respan, LexicalError.respan, Span.shift, Nat.add_right_comm]

theorem tokenize_shift (cs : List Char) (offset k : Nat) :
    tokenize ⟨cs, offset + k⟩ =
      ((tokenize ⟨cs, offset⟩).1.map (Token.respan (Span.shift k)),
        (tokenize ⟨cs, offset⟩).2.map (LexicalError.respan (Span.shift k))) := by
  induction cs using text_induction generalizing offset with
  | nil => rfl
  | blank c cs hc ih => rw [tokenize_blank hc, tokenize_blank hc, Nat.add_right_comm, ih]
  | scan c cs hc ih =>
    rw [tokenize_scan hc, tokenize_scan hc, Nat.add_right_comm, ih, (found_shift offset k c cs).1,
      (found_shift offset k c cs).2, List.map_cons, List.map_append]

theorem tokenize_errors_within (cs : List Char) (offset : Nat) :
    ∀ e ∈ (tokenize ⟨cs, offset⟩).2, e.span.start ≤ offset + Text.byteSize cs := by
  induction cs using text_induction generalizing offset with
  | nil => nofun
  | blank c cs hc ih =>
    rw [tokenize_blank hc, Text.byteSize_cons, ← Nat.add_assoc]
    exact ih _
  | scan c cs hc ih =>
    rw [tokenize_scan hc]
    intro e he
    rcases List.mem_append.1 he with he | he
    · unfold found at he
      split at he
      · cases he
      · rw [List.mem_singleton.1 he]
        exact Nat.le_add_right _ _
    · have hsize := congrArg Text.byteSize (List.take_append_drop (Lexeme.scan c cs).2 (c :: cs))
      rw [Text.byteSize_append] at hsize
      rw [← hsize, ← Nat.add_assoc]
      exact ih _ e he

/-- A text without errors that swallow what follows it is read as it is alone in front of a line
end. -/
theorem tokenize_line {cs : List Char} (ds : List Char) {offset : Nat}
    (h : ∀ e ∈ (tokenize ⟨cs, offset⟩).2, e.isFatal = false) :
    tokenize ⟨cs ++ '\n' :: ds, offset⟩ =
      ((tokenize ⟨cs, offset⟩).1 ++ (tokenize ⟨ds, offset + Text.byteSize cs + 1⟩).1,
        (tokenize ⟨cs, offset⟩).2 ++ (tokenize ⟨ds, offset + Text.byteSize cs + 1⟩).2) := by
  induction cs using text_induction generalizing offset with
  | nil =>
    rw [List.nil_append, tokenize_blank (by decide), tokenize_nil, List.nil_append, List.nil_append]
    rfl
  | blank c cs hc ih =>
    rw [tokenize_blank hc] at h ⊢
    rw [List.cons_append, tokenize_blank hc, ih h, Text.byteSize_cons, ← Nat.add_assoc]
  | scan c cs hc ih =>
    rw [tokenize_scan hc] at h ⊢
    obtain ⟨hhead, hrest⟩ := List.forall_mem_append.1 h
    have hline : Lexeme.scan c (cs ++ '\n' :: ds) = Lexeme.scan c cs := by
      refine Lexeme.scan_blank (Lexeme.apart_of_isBlank rfl) cs ds c
        (fun f hf => ?_) fun _ => .inl rfl
      simp only [found, hf, itemErrors, List.forall_mem_singleton] at hhead
      exact hhead
    have hfound : found offset c (cs ++ '\n' :: ds) = found offset c cs := by
      rw [found, found, hline, ← List.cons_append,
        List.take_append_of_le_length (Lexeme.scan_length_le c cs)]
    have hsize := congrArg Text.byteSize (List.take_append_drop (Lexeme.scan c cs).2 (c :: cs))
    rw [Text.byteSize_append] at hsize
    rw [List.cons_append, tokenize_scan hc, hfound, hline, ← List.cons_append,
      List.take_append_of_le_length (Lexeme.scan_length_le c cs),
      List.drop_append_of_le_length (Lexeme.scan_length_le c cs), ih hrest, ← hsize,
      ← Nat.add_assoc offset]
    simp only [List.cons_append, List.append_assoc]

end Lexer

end ApiScript
