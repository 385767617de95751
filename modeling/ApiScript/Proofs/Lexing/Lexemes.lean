import ApiScript.Proofs.Lexing.Lines
import ApiScript.Proofs.Lexing.Pieces
import Mathlib.Data.List.TakeWhile

set_option autoImplicit false
set_option relaxedAutoImplicit false

/-!
The lexemes of a text, comments and places left out, and what becomes of them when more is written
on the same line.
-/

namespace ApiScript.Lexer

def lexemes (cs : List Char) : List Lexeme :=
  ((tokenize ⟨cs, 0⟩).1.map (·.lexeme)).filter (!·.isTrivia)

private theorem lexemes_anywhere (cs : List Char) (offset : Nat) :
    ((tokenize ⟨cs, offset⟩).1.map (·.lexeme)).filter (!·.isTrivia) = lexemes cs := by
  rw [← Nat.zero_add offset, tokenize_shift, List.map_map]
  rfl

theorem map_tokenizeFiltered (source : String) (offset : Nat) :
    (ofString source offset).tokenizeFiltered.1.map (·.lexeme) = lexemes source.toList := by
  rw [← lexemes_anywhere _ offset, List.filter_map]
  rfl

theorem lexemes_blank {c : Char} (cs : List Char) (h : Lexeme.isBlank c = true) :
    lexemes (c :: cs) = lexemes cs := by
  rw [lexemes, tokenize_blank h, lexemes_anywhere]

private theorem lexemes_scan {c : Char} (cs : List Char) (h : Lexeme.isBlank c = false) :
    lexemes (c :: cs) = [(itemToken (found 0 c cs)).lexeme].filter (!·.isTrivia) ++
      lexemes ((c :: cs).drop (Lexeme.scan c cs).2) := by
  rw [lexemes, tokenize_scan h, List.map_cons, ← List.singleton_append, List.filter_append,
    lexemes_anywhere]

theorem lexemes_legible {l : Lexeme} {rest : List Char} (h : l.Legible rest)
    (hl : l.isTrivia = false) :
    lexemes (l.spelling.toList ++ rest) = l :: lexemes rest := by
  rw [lexemes, Piece.tokenize_legible h, List.map_cons, List.filter_cons_of_pos (by simp [hl]),
    lexemes_anywhere]

/-- Where a text without errors is followed by a blank and more on the same line, its lexemes are
the same, and those of what follows come behind them, unless a line comment takes it up. -/
theorem lexemes_before {b : Char} (hb : Lexeme.isBlank b = true) {cs ds : List Char}
    (hds : '\n' ∉ b :: ds) {offset : Nat} (h : (tokenize ⟨cs, offset⟩).2 = []) :
    lexemes (cs ++ b :: ds) = lexemes cs ∨ lexemes (cs ++ b :: ds) = lexemes cs ++ lexemes ds := by
  induction cs using text_induction generalizing offset with
  | nil => exact .inr (lexemes_blank ds hb)
  | blank c cs hc ih =>
    rw [tokenize_blank hc] at h
    rw [List.cons_append, lexemes_blank _ hc, lexemes_blank _ hc]
    exact ih h
  | scan c cs hc ih =>
    rw [tokenize_scan hc] at h
    obtain ⟨hitem, hrest⟩ := List.append_eq_nil_iff.1 h
    by_cases hopen : (c = '/' ∧ cs.head? = some '/') ∧ '\n' ∉ cs
    · -- The comment goes on up to the end of the longer text.
      obtain ⟨⟨rfl, hslash⟩, hcs⟩ := hopen
      obtain ⟨cs, rfl⟩ := List.head?_eq_some_iff.1 hslash
      have hcomment {cs : List Char} (hcs : '\n' ∉ cs) : lexemes ('/' :: '/' :: cs) = [] := by
        have hall : ('/' :: '/' :: cs).takeWhile (· != '\n') = '/' :: '/' :: cs :=
          List.takeWhile_eq_self_iff.2 fun d hd => by
            rw [bne_iff_ne]
            rintro rfl
            simp [hcs] at hd
        have hscan : Lexeme.scan '/' ('/' :: cs) =
            (.ok (.comment .line (String.ofList ('/' :: '/' :: cs))),
            ('/' :: '/' :: cs).length) := by
          simp [Lexeme.scan, Lexeme.isWordStart, hall]
        rw [lexemes_scan _ rfl, found, hscan, List.drop_length]
        rfl
      refine .inl ?_
      rw [List.cons_append, List.cons_append, hcomment, hcomment (List.not_mem_of_not_mem_cons hcs)]
      exact List.not_mem_append (List.not_mem_of_not_mem_cons hcs) hds
    · have hscan : Lexeme.scan c (cs ++ b :: ds) = Lexeme.scan c cs := by
        refine Lexeme.scan_blank (Lexeme.apart_of_isBlank hb) cs ds c (fun f hf => ?_) fun hline =>
          ?_
        · simp [found, hf, itemErrors] at hitem
        · exact .inr (Classical.byContradiction fun hcs => hopen ⟨hline, hcs⟩)
      have hfound :
          (itemToken (found 0 c (cs ++ b :: ds))).lexeme = (itemToken (found 0 c cs)).lexeme := by
        rw [found, found, hscan]
        cases (Lexeme.scan c cs).1 <;> rfl
      rw [List.cons_append, lexemes_scan _ hc, lexemes_scan _ hc, hfound, hscan, ← List.cons_append,
        List.drop_append_of_le_length (Lexeme.scan_length_le c cs), List.append_assoc]
      exact (ih hrest).imp (congrArg _) (congrArg _)

end ApiScript.Lexer
