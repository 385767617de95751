import ApiScript.Grammar.State
import ApiScript.Proofs.Lexing.WellSpelled

set_option autoImplicit false
set_option relaxedAutoImplicit false

/-!
Clear pieces: their lexemes are written as lexemes of their kinds are, and nothing behind one runs
into it. Their text is read as they are.
-/

namespace ApiScript

namespace Piece

/-- Each lexeme is well spelled and no comment, and what is written behind it, in the end `rest`,
does not run into it. -/
def Clear : List Piece → List Char → Prop
  | [], _ => True
  | lexeme l :: ps, rest =>
    (l.WellSpelled ∧ l.isTrivia = false ∧ l.Stops ((render ps).toList ++ rest)) ∧ Clear ps rest
  | space :: ps, rest | line _ :: ps, rest => Clear ps rest

variable {ps qs : List Piece} {rest : List Char}

theorem clear_append : Clear (ps ++ qs) rest ↔ Clear ps ((render qs).toList ++ rest) ∧
    Clear qs rest := by
  induction ps with
  | nil => simp [Clear]
  | cons p ps ih => cases p <;> simp [Clear, ih, render_append, and_assoc]

theorem Clear.legible (h : Clear ps rest) : Legible ps rest := by
  induction ps with
  | nil => trivial
  | cons p ps ih =>
    cases p with
    | lexeme l =>
      obtain ⟨⟨hspelled, -, hstops⟩, hps⟩ := h
      exact ⟨hspelled.legible hstops, ih hps⟩
    | space => exact ih h
    | line indent => exact ih h

theorem Clear.kept (h : Clear ps rest) : ∀ l ∈ lexemes ps, l.isTrivia = false ∧ l ≠ .invalid := by
  induction ps with
  | nil => exact List.forall_mem_nil _
  | cons p ps ih =>
    cases p with
    | lexeme l =>
      obtain ⟨⟨hspelled, htrivia, -⟩, hps⟩ := h
      refine List.forall_mem_cons.2 ⟨⟨htrivia, ?_⟩, ih hps⟩
      rintro rfl
      exact hspelled
    | space => exact ih h
    | line indent => exact ih h

end Piece

/-- The text of legible pieces without comments has no errors, and their tokens. -/
theorem Grammar.State.ofString_render {ps : List Piece} (h : Piece.Legible ps [])
    (hkept : ∀ l ∈ Piece.lexemes ps, l.isTrivia = false ∧ l ≠ .invalid) :
    (State.ofString (Piece.render ps) 0).after = Piece.tokens 0 ps ∧
    (State.ofString (Piece.render ps) 0).log = [] := by
  have hfilter {p : Token → Bool}
      (hp : ∀ t, t.lexeme.isTrivia = false ∧ t.lexeme ≠ .invalid → p t = true) :
      (Piece.tokens 0 ps).filter p = Piece.tokens 0 ps := by
    refine List.filter_eq_self.2 fun t ht => hp t (hkept _ ?_)
    rw [← Piece.tokens_lexemes 0]
    exact List.mem_map_of_mem ht
  simp only [State.ofString, Lexer.tokenizeFiltered, Piece.tokenize_legible_render h]
  rw [hfilter fun t ht => by simp [ht.1], hfilter fun t ht => by simp [ht.2]]
  exact ⟨rfl, rfl⟩

end ApiScript
