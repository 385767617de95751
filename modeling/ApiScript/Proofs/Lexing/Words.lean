import ApiScript.Proofs.Lexing.Tokens

set_option autoImplicit false
set_option relaxedAutoImplicit false

/-!
Identifiers are words: of all lexemes only they and the keywords are read from one.
-/

namespace ApiScript

namespace Lexeme

structure Word (text : String) : Prop where
  start : ∃ c cs, text.toList = c :: cs ∧ isWordStart c = true
  parts : text.toList.all isWordPart = true

structure IsIdentifier (text : String) : Prop where
  word : Word text
  free : Keyword.ofSpelling? text = none

theorem word_takeWhile {c : Char} {cs : List Char} (h : isWordStart c = true) :
    Word (String.ofList ((c :: cs).takeWhile isWordPart)) where
  start := by
    rw [String.toList_ofList, List.takeWhile_cons_of_pos (isWordPart_of_isWordStart h)]
    exact ⟨c, _, rfl, h⟩
  parts := by
    rw [String.toList_ofList]
    exact List.all_takeWhile

theorem ofWord_eq_identifier {word text : String} :
    ofWord word = .identifier text ↔ word = text ∧ Keyword.ofSpelling? text = none := by
  unfold ofWord
  cases hk : Keyword.ofSpelling? word with
  | some k =>
    refine ⟨fun h => (by cases h), ?_⟩
    rintro ⟨rfl, hnone⟩
    cases hk.symm.trans hnone
  | none =>
    refine ⟨fun h => ?_, fun h => by rw [h.1]⟩
    cases h
    exact ⟨rfl, hk⟩

def Worded : Lexeme → Prop
  | identifier text => IsIdentifier text
  | _ => True

private theorem scanDelimited_worded {make : String → Lexeme} {fault : LexicalFault}
    {enclosure : Enclosure} {opener : Nat} {cs : List Char} {l : Lexeme} {n : Nat}
    (h : scanDelimited make fault enclosure opener cs = (.ok l, n))
    (hmake : ∀ text, (make text).Worded) : l.Worded := by
  rw [scanDelimited_ok h]
  exact hmake _

theorem scan_worded {c : Char} {cs : List Char} {l : Lexeme} {n : Nat}
    (h : scan c cs = (.ok l, n)) : l.Worded := by
  unfold scan at h
  dsimp only at h
  split at h
  · cases h
    trivial
  split at h
  · exact scanDelimited_worded h fun _ => trivial
  split at h
  · exact scanDelimited_worded h fun _ => trivial
  split at h
  · exact scanDelimited_worded h fun _ => trivial
  split at h
  · rename_i hstart
    cases h
    cases hword : ofWord (String.ofList ((c :: cs).takeWhile isWordPart)) with
    | identifier text =>
      obtain ⟨rfl, hfree⟩ := ofWord_eq_identifier.1 hword
      exact ⟨word_takeWhile hstart, hfree⟩
    | _ => trivial
  split at h
  · cases h
    trivial
  split at h
  · exact scanDelimited_worded h fun _ => trivial
  split at h
  · cases h
    trivial
  · cases h

end Lexeme

namespace Lexer

theorem steps_worded (bound : Nat) (l : Lexer) : ∀ t ∈ (steps bound l).1, t.lexeme.Worded := by
  induction bound generalizing l with
  | zero => simp [steps]
  | succ bound ih =>
    cases hnext : l.next? with
    | none => simp [steps_of_none hnext]
    | some r =>
      obtain ⟨item, l'⟩ := r
      rw [steps_succ hnext]
      refine List.forall_mem_cons.2 ⟨?_, ih l'⟩
      obtain ⟨c, cs, -, rfl, -⟩ := next?_eq_some hnext
      unfold found
      cases hscan : (Lexeme.scan c cs).1 with
      | ok lexeme =>
        exact Lexeme.scan_worded (Prod.ext hscan rfl : Lexeme.scan c cs = (.ok lexeme, _))
      | error fault => trivial

end Lexer

end ApiScript
