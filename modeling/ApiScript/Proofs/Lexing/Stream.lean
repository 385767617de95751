import ApiScript.Proofs.Places.Fault

set_option autoImplicit false
set_option relaxedAutoImplicit false

/-!
The stream of tokens and errors of a text. Wherever single steps are given up for reading all that
is left, the same is found. An error that swallows what follows it is the last thing in the stream.
-/

namespace ApiScript

private theorem Lexeme.scan_fatal {c : Char} {cs : List Char} {fault : LexicalFault}
    (h : (scan c cs).1 = .error fault) (hfatal : fault.isFatal = true) :
    (scan c cs).2 = (c :: cs).length := by
  rcases scan_fault h with ⟨rfl, -⟩ | ⟨-, hall⟩
  · cases hfatal
  · exact hall

namespace Lexer

private theorem take_parts (l : Lexer) (k : Nat) : ∃ items : List (Except LexicalError Token),
    (l.take k).1 = items.map some ++ List.replicate (k - items.length) none ∧
      items.length = min k l.tokenize.1.length ∧ (∀ t, .ok t ∈ items → t.lexeme ≠ .invalid) ∧
      l.tokenize = (items.map itemToken ++ (l.take k).2.tokenize.1, items.flatMap itemErrors ++
        (l.take k).2.tokenize.2) := by
  induction k generalizing l with
  | zero => exact ⟨[], rfl, (Nat.zero_min _).symm, nofun, rfl⟩
  | succ k ih =>
    cases hnext : l.next? with
    | none =>
      have hempty : l.tokenize = ([], []) := tokenize_of_next?_none hnext
      obtain ⟨items, htake, hlength, -, htokenize⟩ := ih l
      rw [hempty, List.length_nil, Nat.min_zero] at hlength
      obtain rfl := List.eq_nil_of_length_eq_zero hlength
      refine ⟨[], ?_, ?_, nofun, ?_⟩
      · simp only [take, hnext, htake]
        rfl
      · rw [hempty, List.length_nil, List.length_nil, Nat.min_zero]
      · simp only [take, hnext]
        exact htokenize
    | some r =>
      obtain ⟨item, rest⟩ := r
      obtain ⟨items, htake, hlength, hvalid, htokenize⟩ := ih rest
      have hall := tokenize_of_next? hnext
      refine ⟨item :: items, ?_, ?_, ?_, ?_⟩
      · simp only [take, hnext, htake, List.map_cons, List.cons_append, List.length_cons,
          Nat.succ_sub_succ]
      · rw [hall, List.length_cons, List.length_cons, hlength]
        omega
      · intro t ht
        rcases List.mem_cons.1 ht with rfl | ht
        · exact next?_valid hnext
        · exact hvalid t ht
      · rw [hall, htokenize]
        simp only [take, hnext, List.map_cons, List.cons_append, List.flatMap_cons,
          List.append_assoc]

private theorem tokenize_fatal (cs : List Char) (offset : Nat) :
    (tokenize ⟨cs, offset⟩).2.countP (·.isFatal) ≤ 1 ∧
      ∀ e ∈ (tokenize ⟨cs, offset⟩).2, e.isFatal = true →
        (tokenize ⟨cs, offset⟩).1.getLast? = some ⟨.invalid, e.span⟩ ∧ e.span.stop = offset +
          Text.byteSize cs := by
  induction cs using text_induction generalizing offset with
  | nil => exact ⟨Nat.zero_le _, nofun⟩
  | blank c cs hc ih =>
    rw [tokenize_blank hc, Text.byteSize_cons, ← Nat.add_assoc]
    exact ih _
  | scan c cs hc ih =>
    obtain ⟨hcount, hlast⟩ := ih (offset + Text.byteSize ((c :: cs).take (Lexeme.scan c cs).2))
    have hsize := congrArg Text.byteSize (List.take_append_drop (Lexeme.scan c cs).2 (c :: cs))
    rw [Text.byteSize_append] at hsize
    rw [Nat.add_assoc, hsize] at hlast
    rw [tokenize_scan hc]
    by_cases hfatal : ∃ e ∈ itemErrors (found offset c cs), e.isFatal = true
    · -- This step has swallowed all that is left.
      obtain ⟨e, he, hfatal⟩ := hfatal
      unfold found at he ⊢
      cases hscan : (Lexeme.scan c cs).1 with
      | ok l =>
        rw [hscan] at he
        cases he
      | error fault =>
        rw [hscan] at he
        obtain rfl := List.mem_singleton.1 he
        have hall : (Lexeme.scan c cs).2 = (c :: cs).length := Lexeme.scan_fatal hscan hfatal
        rw [hall, List.drop_length, List.take_length, tokenize_nil]
        refine ⟨List.countP_le_length, fun d hd _ => ?_⟩
        obtain rfl := List.mem_singleton.1 hd
        exact ⟨rfl, rfl⟩
    · have hnone : (itemErrors (found offset c cs)).countP (·.isFatal) = 0 :=
        List.countP_eq_zero.2 fun e he hfatal' => hfatal ⟨e, he, hfatal'⟩
      refine ⟨?_, fun e he hfatal' => ?_⟩
      · rw [List.countP_append, hnone, Nat.zero_add]
        exact hcount
      · rcases List.mem_append.1 he with he | he
        · exact absurd ⟨e, he, hfatal'⟩ hfatal
        · obtain ⟨htoken, hstop⟩ := hlast e he hfatal'
          refine ⟨?_, hstop⟩
          rw [List.getLast?_cons, htoken]
          rfl

/-- The stream of a text, found at any offset, is the same however many single steps are taken
before all that is left is read: the items of the steps stand for the tokens at their positions, and
their errors for those that come first. At most one error is fatal; its token is the last one, and
it comes to the end of the text. -/
theorem take_tokenize (l : Lexer) (k : Nat) :
    (∃ items : List (Except LexicalError Token), (l.take k).1 = items.map some ++
      List.replicate (k - items.length) none ∧
      items.length = min k l.tokenize.1.length ∧ (∀ t, .ok t ∈ items → t.lexeme ≠ .invalid) ∧
      l.tokenize =
        (items.map itemToken ++ (l.take k).2.tokenize.1, items.flatMap itemErrors ++
          (l.take k).2.tokenize.2)) ∧
      l.tokenize.2.countP (·.isFatal) ≤ 1 ∧
      ∀ e ∈ l.tokenize.2, e.isFatal = true →
        l.tokenize.1.getLast? = some ⟨.invalid, e.span⟩ ∧ e.span.stop = l.offset +
          Text.byteSize l.rest :=
  ⟨take_parts l k, tokenize_fatal l.rest l.offset⟩

/-- A string that is not closed, read behind two steps from a text with another error. -/
theorem take_tokenize_of_open_string :
    ((ofString "x # \"é" 3).take 2).1.length = 2 ∧ (ofString "x # \"é" 3).tokenize.2.length = 2 ∧
      ⟨.unterminatedString '"', ⟨7, 10⟩⟩ ∈ (ofString "x # \"é" 3).tokenize.2 ∧
      (ofString "x # \"é" 3).tokenize.1.getLast? = some ⟨.invalid, ⟨7, 10⟩⟩ ∧
      10 = 3 + Text.byteSize "x # \"é".toList := by
  have he : ⟨.unterminatedString '"', ⟨7, 10⟩⟩ ∈ (ofString "x # \"é" 3).tokenize.2 := by
    decide +kernel
  exact ⟨rfl, rfl, he, (take_tokenize (ofString "x # \"é" 3) 2).2.2 _ he rfl⟩

end Lexer

end ApiScript
