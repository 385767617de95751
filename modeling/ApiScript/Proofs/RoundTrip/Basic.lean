import ApiScript.Proofs.Ladder.Plain
import ApiScript.Proofs.Lexing.Clear
import ApiScript.Proofs.Reading.Brace

set_option autoImplicit false
set_option relaxedAutoImplicit false

/-!
Items with commas between them, as they are written and read: what each of them is read as is what
is read of them all, if no lexeme of one runs into the comma or the closer behind it.
-/

namespace ApiScript

open Piece

section Layout

def Piece.commaSeparated {α : Type} (layout : α → List Piece) : List α → List Piece
  | [] => []
  | a :: as => layout a ++ comma (!as.isEmpty) ++ commaSeparated layout as

variable {rest : List Char}

/-- The text goes on with a blank, a comma or a closer. -/
def Sealed (rest : List Char) : Prop := ∃ c ∈ [' ', ',', ']', '}'], rest.head? = some c

theorem sealed_render {p : Piece} {ps : List Piece} {c : Char} {cs : List Char}
    (hp : p.text.toList = c :: cs) (h : c ∈ [' ', ',', ']', '}']) :
    Sealed ((render (p :: ps)).toList ++ rest) := by
  rw [render_cons, hp]
  exact ⟨c, h, rfl⟩

private theorem Sealed.exists_cons (h : Sealed rest) :
    ∃ c cs, rest = c :: cs ∧ (c = ' ' ∨ c = ',' ∨ c = ']' ∨ c = '}') := by
  obtain ⟨c, hc, hhead⟩ := h
  obtain ⟨cs, rfl⟩ := List.head?_eq_some_iff.1 hhead
  exact ⟨c, cs, rfl, by simpa using hc⟩

theorem Sealed.begins (h : Sealed rest) : Begins rest := by
  obtain ⟨c, cs, rfl, hc⟩ := h.exists_cons
  refine ⟨c, cs, rfl, ?_⟩
  rcases hc with rfl | rfl | rfl | rfl <;> decide

theorem Sealed.bounds (h : Sealed rest) : Bounds rest := by
  obtain ⟨c, cs, rfl, hc⟩ := h.exists_cons
  apply bounds_cons
  rcases hc with rfl | rfl | rfl | rfl <;> decide

theorem Sealed.not_goesOn (h : Sealed rest) : Rule.goesOn rest = false := by
  obtain ⟨c, cs, rfl, hc⟩ := h.exists_cons
  rcases hc with rfl | rfl | rfl | rfl <;> rfl

theorem Piece.clear_symbol {s : Symbol} (h : s.growsBy = fun _ => false) (rest : List Char) :
    Clear [symbol s] rest := by
  refine ⟨⟨trivial, rfl, ?_⟩, trivial⟩
  intro c hc
  rw [h]

theorem Piece.clear_commaSeparated {α : Type} {layout : α → List Piece} {as : List α}
    (h : ∀ a ∈ as, ∀ rest, Sealed rest → Clear (layout a) rest) (hrest : Sealed rest) :
    Clear (commaSeparated layout as) rest := by
  induction as with
  | nil => trivial
  | cons a as ih =>
    obtain ⟨ha, has⟩ := List.forall_mem_cons.1 h
    rw [commaSeparated, clear_append, clear_append]
    cases as with
    | nil => exact ⟨⟨ha _ hrest, trivial⟩, trivial⟩
    | cons b bs => exact ⟨⟨ha _ (sealed_render rfl (by decide)), clear_symbol rfl _⟩, ih has⟩

end Layout

namespace Grammar

variable {α β : Type} {s : State} {ps qs : List Piece} {rest : List Token}

/-- The tokens of pieces are next, wherever these stand, and behind them is `rest`. -/
def State.InFront (s : State) (ps : List Piece) (rest : List Token) : Prop :=
  ∃ offset, s.after = Piece.tokens offset ps ++ rest

namespace State.InFront

variable {l : Lexeme}

theorem nil (h : s.InFront [] rest) : s.after = rest := by
  obtain ⟨offset, h⟩ := h
  exact h

theorem append (h : s.InFront (ps ++ qs) rest) :
    ∃ offset, s.InFront ps (Piece.tokens offset qs ++ rest) := by
  obtain ⟨offset, h⟩ := h
  rw [tokens_append, List.append_assoc] at h
  exact ⟨_, offset, h⟩

theorem current? (h : s.InFront (lexeme l :: ps) rest) : s.current? = some l := by
  obtain ⟨offset, h⟩ := h
  simp [State.current?, State.peek?, h, Piece.tokens]

theorem sees (h : s.InFront (lexeme l :: ps) rest) (l' : Lexeme) : s.sees l' = (l == l') := by
  simp [State.sees, h.current?]

theorem advance (h : s.InFront (lexeme l :: ps) rest) : s.advance.InFront ps rest := by
  obtain ⟨offset, h⟩ := h
  exact ⟨_, State.after_advance h⟩

theorem space (h : s.InFront (space :: ps) rest) : s.InFront ps rest := by
  obtain ⟨offset, h⟩ := h
  exact ⟨_, h⟩

end State.InFront

/-- The tokens go on with an assignment sign, a comma or a closer. -/
def Parted (rest : List Token) : Prop :=
  ∃ next behind, rest = next :: behind ∧
    (next.lexeme = .symbol .assign ∨ next.lexeme = .symbol .comma ∨
      ∃ delimiter : Delimiter, next.lexeme = delimiter.closer)

/-- From the tokens of pieces, wherever they are found, a reader answers with what is wanted and
reports nothing, if what follows them is so. -/
def ReadsBack (p : Parser α) (ps : List Piece) (follow : List Token → Prop)
    (wanted : α → Prop) : Prop :=
  ∀ (s : State) (rest : List Token), s.InFront ps rest → follow rest →
    ∃ a t, Reads p s a t ∧ wanted a ∧ t.after = rest ∧ t.log = s.log

/-- In front of more pieces, the reader comes to these. -/
theorem ReadsBack.before {p : Parser α} {follow : List Token → Prop} {wanted : α → Prop}
    (h : ReadsBack p ps follow wanted) (hs : s.InFront (ps ++ qs) rest)
    (hfollow : ∀ offset, follow (Piece.tokens offset qs ++ rest)) :
    ∃ a t, Reads p s a t ∧ wanted a ∧ t.InFront qs rest ∧ t.log = s.log := by
  obtain ⟨offset, hs⟩ := hs.append
  obtain ⟨a, t, ha, hwanted, hafter, hlog⟩ := h s _ hs (hfollow offset)
  exact ⟨a, t, ha, hwanted, ⟨offset, hafter⟩, hlog⟩

section Separated

variable {delimiter : Delimiter} {item : Parser α} {layout : β → List Piece} {wanted : β → α → Prop}
    {bs : List β}

private theorem parted_separated (offset : Nat) : Parted (Piece.tokens offset
    (comma (!bs.isEmpty) ++ commaSeparated layout bs ++ [lexeme delimiter.closer]) ++ rest) := by
  cases bs with
  | nil => exact ⟨_, _, rfl, .inr (.inr ⟨delimiter, rfl⟩)⟩
  | cons b bs => exact ⟨_, _, rfl, .inr (.inl rfl)⟩

variable (hopen : ∀ {s t : State} {a : α}, Reads item s a t → s.sees delimiter.closer = false)

include hopen

private theorem continues_separated (hitem : ∀ b ∈ bs, ReadsBack item (layout b) Parted (wanted b))
    (hs : s.InFront (comma (!bs.isEmpty) ++ commaSeparated layout bs ++
      [lexeme delimiter.closer]) rest) :
    ∃ as t, Continues delimiter.closer true item s as t ∧ List.Forall₂ wanted bs as ∧
      t.InFront [lexeme delimiter.closer] rest ∧ t.log = s.log := by
  induction bs generalizing s with
  | nil =>
    have hcloser : s.InFront [lexeme delimiter.closer] rest := hs
    have hcomma : s.sees (.symbol .comma) = false := by
      rw [hcloser.sees]
      cases delimiter <;> rfl
    exact ⟨[], s, .bare (by rw [hcomma]; exact Bool.false_ne_true), .nil, hcloser, rfl⟩
  | cons b bs ih =>
    obtain ⟨hb, hbs⟩ := List.forall_mem_cons.1 hitem
    have hcomma : s.InFront (symbol .comma :: space ::
        (commaSeparated layout (b :: bs) ++ [lexeme delimiter.closer])) rest := hs
    have hnext := hcomma.advance.space
    rw [commaSeparated, List.append_assoc, List.append_assoc,
      ← List.append_assoc (comma _)] at hnext
    obtain ⟨a, t, ha, hwanted, ht, hlog⟩ := hb.before hnext parted_separated
    obtain ⟨as, u, has, hall, hu, hlog'⟩ := ih hbs ht
    refine ⟨a :: as, u, .more (hcomma.sees _) ?_ ha has, .cons hwanted hall, hu, ?_⟩
    · rw [hopen ha]
      exact fun h => Bool.false_ne_true h.2
    · rw [hlog', hlog, State.log_advance]

theorem readsBack_delimited [Advances item] (opener : Span)
    (hitem : ∀ b ∈ bs, ReadsBack item (layout b) Parted (wanted b)) :
    ReadsBack (delimited delimiter true opener item)
      (commaSeparated layout bs ++ [lexeme delimiter.closer])
      (fun _ => True) fun r => List.Forall₂ wanted bs r.1 := by
  intro s rest hs _
  cases bs with
  | nil =>
    have hcloser : s.InFront [lexeme delimiter.closer] rest := hs
    have hsees : s.sees delimiter.closer = true := (hcloser.sees _).trans (beq_self_eq_true _)
    exact ⟨_, _, reads_delimited.2 (.inl ⟨hsees, rfl, rfl⟩), .nil, hcloser.advance.nil,
      State.log_advance s⟩
  | cons b bs =>
    obtain ⟨hb, hbs⟩ := List.forall_mem_cons.1 hitem
    rw [commaSeparated, List.append_assoc, List.append_assoc, ← List.append_assoc (comma _)] at hs
    obtain ⟨a, t, ha, hwanted, ht, hlog⟩ := hb.before hs parted_separated
    obtain ⟨as, u, has, hall, hu, hlog'⟩ := continues_separated hopen hbs ht
    have hsees : u.sees delimiter.closer = true := (hu.sees _).trans (beq_self_eq_true _)
    refine ⟨(a :: as, u.currentSpan), u.advance,
      reads_delimited.2 (.inr ⟨?_, a, t, as, u, ha, has, hsees, rfl, rfl⟩),
      .cons hwanted hall, hu.advance.nil, ?_⟩
    · rw [hopen ha]
      exact Bool.false_ne_true
    · rw [State.log_advance, hlog', hlog]

end Separated

end Grammar

end ApiScript
