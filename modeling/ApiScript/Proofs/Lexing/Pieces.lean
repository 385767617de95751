import ApiScript.Proofs.Lexing.Steps
import ApiScript.Proofs.Lexing.Words
import ApiScript.Tree.Layout

set_option autoImplicit false
set_option relaxedAutoImplicit false

/-!
The text that pieces make up is read back as their lexemes, wherever no lexeme runs into what is
written behind it.
-/

namespace ApiScript

/-- Whether a character right behind the symbol makes another lexeme of it. -/
def Symbol.growsBy : Symbol → Char → Bool
  | bar, c => c == '|' || c == '>'
  | not, c | less, c | greater, c | range, c => c == '='
  | assign, c => c == '=' || c == '>'
  | minus, c => c == '>'
  | dot, c => c == '.'
  | colon, c => c == ':'
  | slash, c => c == '/' || c == '*'
  | _, _ => false

namespace Lexeme

theorem symbol?_append (s : Symbol) {rest : List Char} (h : ∀ c ∈ rest.head?, s.growsBy c = false) :
    symbol? (s.spelling.toList ++ rest) = some s := by
  cases rest with
  | nil => cases s <;> decide
  | cons c rest =>
    have hc : ∀ d, s.growsBy d = true → ¬d = c := by
      rintro d hd rfl
      rw [h d rfl] at hd
      cases hd
    cases s <;>
    · simp only [Symbol.growsBy, Bool.or_eq_true, beq_iff_eq, forall_eq_or_imp, forall_eq,
        Bool.false_eq_true, false_implies, implies_true] at hc
      simp [symbol?, Symbol.byLength, Symbol.spelling, List.isPrefixOf, hc]

/-- In front of `rest`, what is read of the lexeme's spelling is the lexeme. -/
def Legible (l : Lexeme) (rest : List Char) : Prop :=
  ∃ c cs, l.spelling.toList = c :: cs ∧ isBlank c = false ∧
    scan c (cs ++ rest) = (.ok l, l.spelling.toList.length)

theorem symbol_first (s : Symbol) :
    ∃ c cs, s.spelling.toList = c :: cs ∧ isBlank c = false ∧ c.isDigit = false ∧ c ≠ '"' ∧
      c ≠ '\'' ∧ isWordStart c = false ∧ (c = '/' → s = .slash ∧ cs = []) := by
  cases s <;> exact ⟨_, _, rfl, by decide⟩

theorem legible_symbol (s : Symbol) {rest : List Char} (h : ∀ c ∈ rest.head?, s.growsBy c = false) :
    (symbol s).Legible rest := by
  have hsymbol := symbol?_append s h
  obtain ⟨c, cs, hspelling, hblank, hdigit, hdouble, hsingle, hword, hslash⟩ := symbol_first s
  refine ⟨c, cs, hspelling, hblank, ?_⟩
  have hb : c ≠ 'b' := by
    rintro rfl
    cases hword
  have hcomment (d : Char) (hd : Symbol.slash.growsBy d = true) :
      ¬(c = '/' ∧ (cs ++ rest).head? = some d) := by
    rintro ⟨hc, hd'⟩
    obtain ⟨rfl, rfl⟩ := hslash hc
    rw [h d hd'] at hd
    cases hd
  have hlength : s.spelling.length = s.spelling.toList.length := String.length_toList.symm
  rw [hspelling, List.cons_append] at hsymbol
  simp only [scan, hdigit, Bool.false_eq_true, ↓reduceIte, hdouble, hsingle, hb, false_and, hword,
    hcomment '/' rfl, hcomment '*' rfl, hsymbol, hlength, Lexeme.spelling]

theorem takeWhile_append_of_all {α : Type} {p : α → Bool} {xs ys : List α} (hxs : xs.all p = true)
    (hys : ∀ y ∈ ys.head?, p y = false) : (xs ++ ys).takeWhile p = xs := by
  induction xs with
  | nil =>
    cases ys with
    | nil => rfl
    | cons y ys => simp [hys y rfl]
  | cons x xs ih =>
    rw [List.all_cons, Bool.and_eq_true] at hxs
    rw [List.cons_append, List.takeWhile_cons_of_pos hxs.1, ih hxs.2]

theorem not_isBlank_of_isWordStart {c : Char} (h : isWordStart c = true) : isBlank c = false := by
  rw [Bool.eq_false_iff]
  intro hblank
  simp only [isBlank, Bool.or_eq_true, beq_iff_eq] at hblank
  rcases hblank with (((rfl | rfl) | rfl) | rfl) | rfl <;> cases h

theorem not_isDigit_of_isWordStart {c : Char} (h : isWordStart c = true) : c.isDigit = false := by
  rw [Bool.eq_false_iff]
  intro hdigit
  simp only [Char.isDigit, Bool.and_eq_true, decide_eq_true_eq, UInt32.le_iff_toNat_le,
    ge_iff_le] at hdigit
  have hnine : '9'.val.toNat = 57 := rfl
  rw [isWordStart, Bool.or_eq_true, beq_iff_eq] at h
  rcases h with h | rfl
  · rcases Bool.or_eq_true_iff.1 (show (c.isUpper || c.isLower) = true from h) with h | h
    · have hupper : 'A'.val.toNat ≤ c.val.toNat := UInt32.le_iff_toNat_le.1 (of_decide_eq_true h).1
      have hfirst : 'A'.val.toNat = 65 := rfl
      omega
    · have hlower : 'a'.val.toNat ≤ c.val.toNat :=
        UInt32.le_iff_toNat_le.1 (of_decide_eq_true (Bool.and_eq_true_iff.1 h).1)
      have hfirst : 'a'.val.toNat = 97 := rfl
      omega
  · revert hdigit
    decide

theorem legible_ofWord {text : String} (hword : Word text) {rest : List Char}
    (h : ∀ c ∈ rest.head?, isWordPart c = false ∧ c ≠ '"') : (ofWord text).Legible rest := by
  obtain ⟨c, cs, htext, hstart⟩ := hword.start
  have hspelling : (ofWord text).spelling.toList = c :: cs := by rw [ofWord_spelling, htext]
  refine ⟨c, cs, hspelling, not_isBlank_of_isWordStart hstart, ?_⟩
  have htake : (c :: (cs ++ rest)).takeWhile isWordPart = c :: cs :=
    @takeWhile_append_of_all _ _ (c :: cs) rest (htext ▸ hword.parts) fun d hd => (h d hd).1
  have hdouble : c ≠ '"' := by
    rintro rfl
    cases hstart
  have hsingle : c ≠ '\'' := by
    rintro rfl
    cases hstart
  have hbytes : (cs ++ rest).head? ≠ some '"' := by
    intro hd
    cases cs with
    | nil => exact (h _ hd).2 rfl
    | cons d cs =>
      have hparts := hword.parts
      rw [htext, Option.some.inj hd] at hparts
      simp [isWordPart] at hparts
  simp only [scan, not_isDigit_of_isWordStart hstart, Bool.false_eq_true, ↓reduceIte, hdouble,
    hsingle, hbytes, and_false, hstart, htake, hspelling]
  rw [← htext, String.ofList_toList]

end Lexeme

namespace Piece

theorem render_nil : (render []).toList = [] := rfl

theorem render_cons (p : Piece) (ps : List Piece) :
    (render (p :: ps)).toList = p.text.toList ++ (render ps).toList := by
  simp [render]

theorem render_append (ps qs : List Piece) :
    (render (ps ++ qs)).toList = (render ps).toList ++ (render qs).toList := by
  simp [render]

def lexemes (ps : List Piece) : List Lexeme := ps.filterMap fun
  | lexeme l => some l
  | space | line _ => none

def tokens (offset : Nat) : List Piece → List Token
  | [] => []
  | p :: ps =>
    let stop := offset + Text.byteSize p.text.toList
    match p with
    | lexeme l => ⟨l, ⟨offset, stop⟩⟩ :: tokens stop ps
    | space | line _ => tokens stop ps

theorem tokens_lexemes (offset : Nat) (ps : List Piece) :
    (tokens offset ps).map (·.lexeme) = lexemes ps := by
  induction ps generalizing offset with
  | nil => rfl
  | cons p ps ih => cases p <;> simp [tokens, lexemes, ih]

theorem tokens_append (offset : Nat) (ps qs : List Piece) :
    tokens offset (ps ++ qs) = tokens offset ps ++
      tokens (offset + Text.byteSize (render ps).toList) qs := by
  induction ps generalizing offset with
  | nil => rfl
  | cons p ps ih =>
    rw [render_cons, Text.byteSize_append, ← Nat.add_assoc]
    cases p <;> simp only [tokens, List.cons_append, ih]

/-- Each lexeme is legible in front of what is written behind it, in the end `rest`. -/
def Legible : List Piece → List Char → Prop
  | [], _ => True
  | lexeme l :: ps, rest => l.Legible ((render ps).toList ++ rest) ∧ Legible ps rest
  | space :: ps, rest | line _ :: ps, rest => Legible ps rest

theorem legible_append {ps qs : List Piece} {rest : List Char} :
    Legible (ps ++ qs) rest ↔ Legible ps ((render qs).toList ++ rest) ∧ Legible qs rest := by
  induction ps with
  | nil => simp [Legible]
  | cons p ps ih => cases p <;> simp [Legible, ih, render_append, and_assoc]

private theorem byteSize_spaces (n : Nat) : Text.byteSize (List.replicate n ' ') = n := by
  induction n with
  | zero => rfl
  | succ n ih =>
    rw [List.replicate_succ, Text.byteSize_cons, ih, Nat.add_comm]
    rfl

private theorem tokenize_spaces (n : Nat) (cs : List Char) (offset : Nat) :
    Lexer.tokenize ⟨List.replicate n ' ' ++ cs, offset⟩ = Lexer.tokenize ⟨cs, offset + n⟩ := by
  induction n generalizing offset with
  | zero => rfl
  | succ n ih =>
    rw [List.replicate_succ, List.cons_append, Lexer.tokenize_blank rfl, ih, Nat.add_assoc,
      Nat.add_comm n]
    rfl

theorem tokenize_legible {l : Lexeme} {rest : List Char} (h : l.Legible rest) (offset : Nat) :
    Lexer.tokenize ⟨l.spelling.toList ++ rest, offset⟩ =
      (⟨l, ⟨offset, offset + Text.byteSize l.spelling.toList⟩⟩ ::
          (Lexer.tokenize ⟨rest, offset + Text.byteSize l.spelling.toList⟩).1,
        (Lexer.tokenize ⟨rest, offset + Text.byteSize l.spelling.toList⟩).2) := by
  obtain ⟨c, cs, hspelling, hblank, hscan⟩ := h
  rw [hspelling] at hscan ⊢
  have htake : (c :: (cs ++ rest)).take (c :: cs).length = c :: cs := List.take_left
  have hdrop : (c :: (cs ++ rest)).drop (c :: cs).length = rest := List.drop_left
  rw [List.cons_append, Lexer.tokenize_ok hblank hscan, htake, hdrop]

/-- Legible pieces are read back. -/
theorem tokenize_render {ps : List Piece} {rest : List Char} (h : Legible ps rest) (offset : Nat) :
    Lexer.tokenize ⟨(render ps).toList ++ rest, offset⟩ =
      (tokens offset ps ++ (Lexer.tokenize ⟨rest, offset + Text.byteSize (render ps).toList⟩).1,
        (Lexer.tokenize ⟨rest, offset + Text.byteSize (render ps).toList⟩).2) := by
  induction ps generalizing offset with
  | nil => simp [render_nil, tokens]
  | cons p ps ih =>
    rw [render_cons, List.append_assoc, Text.byteSize_append, ← Nat.add_assoc]
    cases p with
    | lexeme l =>
      rw [text, tokenize_legible h.1, ih h.2]
      rfl
    | space =>
      rw [text, show " ".toList = List.replicate 1 ' ' from rfl, tokenize_spaces, ih h]
      rfl
    | line indent =>
      have htext : (line indent).text.toList = '\n' :: List.replicate indent ' ' := by simp [text]
      have hsize : '\n'.utf8Size = 1 := rfl
      rw [htext, List.cons_append, Lexer.tokenize_blank rfl, tokenize_spaces, ih h,
        Text.byteSize_cons, byteSize_spaces]
      simp only [tokens, htext, Text.byteSize_cons, byteSize_spaces, Nat.add_assoc]

theorem tokenize_legible_render {ps : List Piece} (h : Legible ps []) :
    (Lexer.ofString (render ps) 0).tokenize = (tokens 0 ps, []) := by
  have htokenize := tokenize_render h 0
  rwa [List.append_nil, Lexer.tokenize_nil, List.append_nil] at htokenize

end Piece

end ApiScript
