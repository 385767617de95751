import ApiScript.Proofs.Lexing.Pieces
import ApiScript.Proofs.Spelling.Expression

set_option autoImplicit false
set_option relaxedAutoImplicit false

/-!
Plain expressions: names under operators, in parentheses, and with members, indices and calls behind
them. What they are written as is read back as the same lexemes.
-/

namespace ApiScript

open Piece

structure Name.Plain (n : Name) : Prop where
  word : Lexeme.Word n.text
  identifier : Lexeme.ofWord n.text = .identifier n.text

/-- Expressions made of names, parentheses, operators, members, indices and calls, with room for so
many levels in them. The inside of parentheses, an index, an argument and the operand of a unary
operator are a level deeper. -/
inductive Expr.Plain : Nat → Expr → Prop
  | name {room : Nat} {n : Name} (h : n.Plain) : Plain room (.name n)
  | paren {room : Nat} {s : Span} {e : Expr} (h : Plain room e) : Plain (room + 1) (.paren s e)
  | pipe {room : Nat} {s : Span} {left right : Expr} (hleft : Plain room left)
    (hright : Plain room right) :
    Plain room (.pipe s left right)
  | binary {room : Nat} {s : Span} {op : BinaryOp} {left right : Expr} (hleft : Plain room left)
    (hright : Plain room right) : Plain room (.binary s op left right)
  | unary {room : Nat} {s : Span} {op : UnaryOp} {e : Expr} (h : Plain room e) :
    Plain (room + 1) (.unary s op e)
  | member {room : Nat} {s : Span} {e : Expr} {field : Name} (h : Plain room e)
    (hfield : field.Plain) :
    Plain room (.member s e field)
  | index {room : Nat} {s : Span} {e i : Expr} (h : Plain (room + 1) e) (hindex : Plain room i) :
    Plain (room + 1) (.index s e i)
  | call {room : Nat} {s : Span} {callee : Expr} {args : List Expr} (h : Plain room callee)
    (hroom : args ≠ [] → 0 < room) (hargs : ∀ a ∈ args, Plain (room - 1) a) :
    Plain room (.call s callee args)

namespace Expr

variable {room : Nat} {e : Expr}

theorem layout_unary (s : Span) (op : UnaryOp) (he : ∀ l, e ≠ .literal l) :
    (unary s op e).layout 0 = lexeme op.lexeme :: e.layout 0 := by
  cases op with
  | not => rw [layout.eq_def]
  | neg =>
    cases e with
    | literal l => exact absurd rfl (he l)
    | _ => rw [layout.eq_def]

theorem Plain.ne_literal (h : Plain room e) : ∀ l, e ≠ .literal l := by
  rintro l rfl
  cases h

def lexemes (e : Expr) : List Lexeme := Piece.lexemes (e.layout 0)

def lexemesOfArgs (args : List Expr) : List Lexeme := Piece.lexemes (layoutAll 0 args)

end Expr

/-- What is written behind a word does not run into it. -/
def Bounds (rest : List Char) : Prop := ∀ c ∈ rest.head?, Lexeme.isWordPart c = false ∧ c ≠ '"'

theorem bounds_cons {c : Char} {rest : List Char} (h : Lexeme.isWordPart c = false ∧ c ≠ '"') :
    Bounds (c :: rest) := by
  rintro d ⟨⟩
  exact h

theorem bounds_render {p : Piece} {ps : List Piece} {rest : List Char} (c : Char) {cs : List Char}
    (hp : p.text.toList = c :: cs) (h : Lexeme.isWordPart c = false ∧ c ≠ '"') :
    Bounds ((render (p :: ps)).toList ++ rest) := by
  rw [render_cons, hp, List.cons_append, List.cons_append]
  exact bounds_cons h

/-- A text whose first character makes no longer operator of one in front of it. -/
def Begins (cs : List Char) : Prop := ∃ c ds, cs = c :: ds ∧ c ≠ '=' ∧ c ≠ '>'

theorem Begins.append {cs : List Char} (h : Begins cs) (ds : List Char) : Begins (cs ++ ds) := by
  obtain ⟨c, cs, rfl, hc⟩ := h
  exact ⟨c, cs ++ ds, rfl, hc⟩

theorem Lexeme.Word.begins {text : String} (h : Word text) : Begins text.toList := by
  obtain ⟨c, cs, htext, hc⟩ := h.start
  refine ⟨c, cs, htext, ?_, ?_⟩ <;>
  · rintro rfl
    cases hc

private theorem Name.Plain.begins {n : Name} (h : n.Plain) : Begins n.text.toList := h.word.begins

private theorem Name.Plain.legible {n : Name} (h : n.Plain) {rest : List Char}
    (hrest : Bounds rest) :
    Piece.Legible [Piece.name n] rest := ⟨Lexeme.legible_ofWord h.word hrest, trivial⟩

private theorem BinaryOp.legible (op : BinaryOp) (rest : List Char) :
    op.lexeme.Legible (' ' :: rest) := by
  have hspace {s : Symbol} (hs : s.growsBy ' ' = false) : (Lexeme.symbol s).Legible (' ' :: rest) :=
    Lexeme.legible_symbol s (by simpa using hs)
  cases op with
  | member =>
    have hword : Lexeme.Word "in" := ⟨⟨'i', ['n'], rfl, rfl⟩, rfl⟩
    exact Lexeme.legible_ofWord hword (bounds_cons (by decide))
  | _ => exact hspace rfl

private theorem legible_bracket {s : Symbol} (h : s.growsBy = fun _ => false) (rest : List Char) :
    (Lexeme.symbol s).Legible rest := Lexeme.legible_symbol s (by simp [h])

private theorem Expr.legible_args {args : List Expr} {rest : List Char}
    (h : ∀ a ∈ args, ∀ rest, Bounds rest → Piece.Legible (a.layout 0) rest) :
    Piece.Legible (layoutAll 0 args) ((render [symbol .rightParen]).toList ++ rest) := by
  induction args with
  | nil => trivial
  | cons a args ih =>
    obtain ⟨ha, hargs⟩ := List.forall_mem_cons.1 h
    rw [layoutAll, legible_append, legible_append]
    refine ⟨⟨ha _ ?_, ?_⟩, ih hargs⟩
    · cases args with
      | nil => exact bounds_render ')' rfl (by decide)
      | cons b args => exact bounds_render ',' rfl (by decide)
    · cases args with
      | nil => trivial
      | cons b args => exact ⟨legible_bracket rfl _, trivial⟩

private theorem UnaryOp.legible (op : UnaryOp) {rest : List Char} (h : Begins rest) :
    op.lexeme.Legible rest := by
  obtain ⟨c, cs, rfl, hassign, hgreater⟩ := h
  cases op with
  | not => exact Lexeme.legible_symbol .not (by rintro d ⟨⟩; exact beq_false_of_ne hassign)
  | neg => exact Lexeme.legible_symbol .minus (by rintro d ⟨⟩; exact beq_false_of_ne hgreater)

private theorem Name.Plain.not_grows {n : Name} (h : n.Plain) (rest : List Char) :
    (Lexeme.symbol .dot).Legible ((render [Piece.name n]).toList ++ rest) := by
  obtain ⟨c, cs, htext, hc⟩ := h.word.start
  refine Lexeme.legible_symbol .dot fun d hd => ?_
  rw [render_cons, Piece.name, Piece.text, Name.lexeme, Lexeme.ofWord_spelling, htext] at hd
  rw [← Option.some.inj hd]
  refine beq_false_of_ne ?_
  rintro rfl
  cases hc

theorem Expr.Plain.legible {room : Nat} {e : Expr} (h : Plain room e) :
    Begins (render (e.layout 0)).toList ∧ ∀ rest, Bounds rest →
    Piece.Legible (e.layout 0) rest := by
  induction h with
  | @name _ n h =>
    rw [layout, render_cons, render_nil, List.append_nil, Piece.name, Piece.text, Name.lexeme,
      Lexeme.ofWord_spelling]
    exact ⟨h.begins, fun rest hrest => h.legible hrest⟩
  | paren _ ih =>
    rw [layout, render_append, render_append]
    refine ⟨⟨'(', _, rfl, by decide, by decide⟩, fun rest hrest => ?_⟩
    rw [legible_append, legible_append]
    exact ⟨⟨⟨legible_bracket rfl _, trivial⟩, ih.2 _ (bounds_render ')' rfl (by decide))⟩,
      legible_bracket rfl _, trivial⟩
  | pipe _ _ ihl ihr =>
    rw [layout, render_append, render_append]
    refine ⟨(ihl.1.append _).append _, fun rest hrest => ?_⟩
    rw [legible_append, legible_append]
    exact ⟨⟨ihl.2 _ (bounds_render ' ' rfl (by decide)), legible_bracket rfl _, trivial⟩,
      ihr.2 _ hrest⟩
  | @binary _ _ op _ _ _ _ ihl ihr =>
    rw [layout, render_append, render_append]
    refine ⟨(ihl.1.append _).append _, fun rest hrest => ?_⟩
    rw [legible_append, legible_append]
    exact ⟨⟨ihl.2 _ (bounds_render ' ' rfl (by decide)), op.legible _, trivial⟩, ihr.2 _ hrest⟩
  | @unary _ _ op e h ih =>
    rw [layout_unary _ _ h.ne_literal, render_cons]
    refine ⟨?_, fun rest hrest => ⟨op.legible (ih.1.append rest), ih.2 rest hrest⟩⟩
    cases op with
    | not => exact ⟨'!', _, rfl, by decide, by decide⟩
    | neg => exact ⟨'-', _, rfl, by decide, by decide⟩
  | @member _ _ _ field _ hfield ih =>
    rw [layout, render_append]
    refine ⟨ih.1.append _, fun rest hrest => ?_⟩
    rw [legible_append]
    exact ⟨ih.2 _ (bounds_render '.' rfl (by decide)), hfield.not_grows rest, hfield.legible hrest⟩
  | index _ _ ih ihi =>
    rw [layout, render_append, render_append, render_append]
    refine ⟨((ih.1.append _).append _).append _, fun rest hrest => ?_⟩
    rw [legible_append, legible_append, legible_append]
    exact ⟨⟨⟨ih.2 _ (bounds_render '[' rfl (by decide)), legible_bracket rfl _, trivial⟩,
      ihi.2 _ (bounds_render ']' rfl (by decide))⟩, legible_bracket rfl _, trivial⟩
  | call _ _ _ ih ihargs =>
    rw [layout, render_append, render_append, render_append]
    refine ⟨((ih.1.append _).append _).append _, fun rest hrest => ?_⟩
    rw [legible_append, legible_append, legible_append]
    exact ⟨⟨⟨ih.2 _ (bounds_render '(' rfl (by decide)), legible_bracket rfl _, trivial⟩,
      legible_args fun a ha => (ihargs a ha).2⟩, legible_bracket rfl _, trivial⟩

end ApiScript
