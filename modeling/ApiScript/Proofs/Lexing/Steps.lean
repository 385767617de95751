import ApiScript.Proofs.Lexing.Tokens

set_option autoImplicit false
set_option relaxedAutoImplicit false

/-!
A text is read one character or one lexeme at a time: a blank in front of it is left out, and what
the scan at its head covers is one token. Statements about all tokens of a text follow by the
induction that this gives.
-/

namespace ApiScript.Lexer

private theorem next?_blank {c : Char} {cs : List Char} {offset : Nat}
    (h : Lexeme.isBlank c = true) :
    next? ⟨c :: cs, offset⟩ = next? ⟨cs, offset + c.utf8Size⟩ := by
  simp only [next?, scan?, List.dropWhile_cons, List.takeWhile_cons, h, ↓reduceIte,
    Text.byteSize_cons, Nat.add_assoc]

private theorem next?_scan {c : Char} {cs : List Char} {offset : Nat}
    (h : Lexeme.isBlank c = false) :
    next? ⟨c :: cs, offset⟩ = some (found offset c cs, ⟨(c :: cs).drop (Lexeme.scan c cs).2,
      offset + Text.byteSize ((c :: cs).take (Lexeme.scan c cs).2)⟩) := by
  cases hscan : (Lexeme.scan c cs).1 <;>
  simp only [next?, scan?, List.dropWhile_cons, List.takeWhile_cons, h, Bool.false_eq_true,
    ↓reduceIte, Text.byteSize_nil, Nat.add_zero, found, hscan]

theorem next?_shorter {l l' : Lexer} {item : Except LexicalError Token}
    (h : l.next? = some (item, l')) :
    l'.rest.length < l.rest.length := by
  obtain ⟨blank, mid, hrest, hmid, _⟩ := next?_some h
  have := List.length_pos_iff.2 hmid
  simp only [hrest, List.length_append]
  omega

private theorem steps_congr {bound bound' : Nat} {l : Lexer} (h : l.rest.length ≤ bound)
    (h' : l.rest.length ≤ bound') :
    steps bound l = steps bound' l := by
  induction bound generalizing bound' l with
  | zero =>
    have hnone : l.next? = none := by
      cases hnext : l.next? with
      | none => rfl
      | some r => exact absurd (next?_shorter hnext) (by omega)
    rw [steps_of_none hnone, steps_of_none hnone]
  | succ bound ih =>
    cases bound' with
    | zero =>
      have hnone : l.next? = none := by
        cases hnext : l.next? with
        | none => rfl
        | some r => exact absurd (next?_shorter hnext) (by omega)
      rw [steps_of_none hnone, steps_of_none hnone]
    | succ bound' =>
      cases hnext : l.next? with
      | none => rw [steps_of_none hnext, steps_of_none hnext]
      | some r =>
        obtain ⟨item, l'⟩ := r
        have hlt := next?_shorter hnext
        have hsteps : steps bound l' = steps bound' l' := ih (by omega) (by omega)
        rw [steps_succ hnext, steps_succ hnext, hsteps]

theorem tokenize_of_next? {l l' : Lexer} {item : Except LexicalError Token}
    (h : l.next? = some (item, l')) :
    l.tokenize = (itemToken item :: l'.tokenize.1, itemErrors item ++ l'.tokenize.2) := by
  have hlt := next?_shorter h
  obtain ⟨n, hn⟩ := Nat.exists_eq_succ_of_ne_zero (n := l.rest.length) (by omega)
  have hsteps : steps n l' = l'.tokenize := steps_congr (by omega) (Nat.le_refl _)
  rw [tokenize, hn, steps_succ h, hsteps]

theorem tokenize_of_next?_none {l : Lexer} (h : l.next? = none) : l.tokenize = ([], []) := by
  rw [tokenize, steps_of_none h]

@[simp] theorem tokenize_nil (offset : Nat) : tokenize ⟨[], offset⟩ = ([], []) := rfl

private theorem tokenize_congr {l l' : Lexer} (h : l.next? = l'.next?) :
    l.tokenize = l'.tokenize := by
  cases hnext : l.next? with
  | none => rw [tokenize_of_next?_none hnext, tokenize_of_next?_none (h ▸ hnext)]
  | some r =>
    obtain ⟨item, rest⟩ := r
    exact (tokenize_of_next? hnext).trans (tokenize_of_next? (h ▸ hnext)).symm

theorem tokenize_blank {c : Char} {cs : List Char} {offset : Nat} (h : Lexeme.isBlank c = true) :
    tokenize ⟨c :: cs, offset⟩ = tokenize ⟨cs, offset + c.utf8Size⟩ :=
  tokenize_congr (next?_blank h)

theorem tokenize_scan {c : Char} {cs : List Char} {offset : Nat} (h : Lexeme.isBlank c = false) :
    tokenize ⟨c :: cs, offset⟩ =
      (itemToken (found offset c cs) :: (tokenize ⟨(c :: cs).drop (Lexeme.scan c cs).2,
          offset + Text.byteSize ((c :: cs).take (Lexeme.scan c cs).2)⟩).1,
        itemErrors (found offset c cs) ++ (tokenize ⟨(c :: cs).drop (Lexeme.scan c cs).2,
          offset + Text.byteSize ((c :: cs).take (Lexeme.scan c cs).2)⟩).2) :=
  tokenize_of_next? (next?_scan h)

theorem tokenize_ok {c : Char} {cs : List Char} {offset n : Nat} {l : Lexeme}
    (hc : Lexeme.isBlank c = false) (h : Lexeme.scan c cs = (.ok l, n)) :
    tokenize ⟨c :: cs, offset⟩ =
      (⟨l, ⟨offset, offset + Text.byteSize ((c :: cs).take n)⟩⟩ ::
          (tokenize ⟨(c :: cs).drop n, offset + Text.byteSize ((c :: cs).take n)⟩).1,
        (tokenize ⟨(c :: cs).drop n, offset + Text.byteSize ((c :: cs).take n)⟩).2) := by
  simp only [tokenize_scan hc, found, h, itemToken, itemErrors, List.nil_append]

theorem tokenize_error {c : Char} {cs : List Char} {offset n : Nat} {fault : LexicalFault}
    (hc : Lexeme.isBlank c = false) (h : Lexeme.scan c cs = (.error fault, n)) :
    tokenize ⟨c :: cs, offset⟩ =
      (⟨.invalid, ⟨offset, offset + Text.byteSize ((c :: cs).take n)⟩⟩ ::
          (tokenize ⟨(c :: cs).drop n, offset + Text.byteSize ((c :: cs).take n)⟩).1,
        ⟨fault, ⟨offset, offset + Text.byteSize ((c :: cs).take n)⟩⟩ ::
          (tokenize ⟨(c :: cs).drop n, offset + Text.byteSize ((c :: cs).take n)⟩).2) := by
  simp only [tokenize_scan hc, found, h, itemToken, itemErrors, List.singleton_append]

/-- Induction on a text by the steps that it is read in. -/
@[elab_as_elim]
theorem text_induction {motive : List Char → Prop} (cs : List Char) (nil : motive [])
    (blank : ∀ c cs, Lexeme.isBlank c = true → motive cs → motive (c :: cs))
    (scan : ∀ c cs, Lexeme.isBlank c = false → motive ((c :: cs).drop (Lexeme.scan c cs).2) →
    motive (c :: cs)) :
    motive cs := by
  induction h : cs.length using Nat.strongRecOn generalizing cs with
  | ind n ih =>
    cases cs with
    | nil => exact nil
    | cons c cs =>
      cases hc : Lexeme.isBlank c with
      | true => exact blank c cs hc (ih cs.length (by rw [← h]; exact Nat.lt_succ_self _) cs rfl)
      | false =>
        refine scan c cs hc (ih _ ?_ _ rfl)
        have := Lexeme.scan_length_pos c cs
        simp only [← h, List.length_drop, List.length_cons]
        omega

end ApiScript.Lexer
