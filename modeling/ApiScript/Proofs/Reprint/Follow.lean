import ApiScript.Proofs.Ladder.Lambda
import ApiScript.Proofs.Reprint.Echo

set_option autoImplicit false
set_option relaxedAutoImplicit false

/-!
What is written behind a node, and what was behind it where it was read first: the reader of the
node sees the same in both, and ends there.
-/

namespace ApiScript

open Piece

/-- What the lexeme is to a reader that looks ahead: texts of strings do not matter, nor whether a
list goes on, nor whether two bars are one lexeme. -/
def Lexeme.role : Lexeme → Lexeme
  | string kind _ => string kind ""
  | symbol .rightBrace | symbol .rightBracket => symbol .comma
  | symbol .or => symbol .bar
  | l => l

def Lexeme.isDistinct : Lexeme → Bool
  | string _ _ | symbol .comma | symbol .rightBrace | symbol .rightBracket | symbol .or
  | symbol .bar => false
  | _ => true

theorem Lexeme.eq_of_role {l l' : Lexeme} (h : l'.role = l.role) (hl : l.isDistinct = true) :
    l' = l := by
  have hrole : l.role = l := by
    unfold isDistinct at hl
    unfold role
    split <;> simp_all
  rw [hrole] at h
  subst h
  unfold role at hl ⊢
  split at hl <;> simp_all [isDistinct]

/-- What is written behind a lexeme does not run into it, unless both are points. -/
def Detached (cs : List Char) : Prop :=
  ∀ c ∈ cs.head?, c ∈ [' ', '\n', ',', ')', ']', '}', '(', '[', '|'] ∨ c = '.' ∧
    ∀ d ∈ cs.tail.head?, d.isDigit = false

section Detached

variable {cs : List Char} {p : Piece} {ps : List Piece} {l : Lexeme}

theorem detached_nil : Detached [] := by
  rintro c ⟨⟩

private theorem detached_cons {c : Char} (h : c ∈ [' ', '\n', ',', ')', ']', '}', '(', '[', '|']) :
    Detached (c :: cs) := by
  rintro d ⟨⟩
  exact .inl h

theorem detached_render {c : Char} {ds : List Char} (hp : p.text.toList = c :: ds)
    (h : c ∈ [' ', '\n', ',', ')', ']', '}', '(', '[', '|']) :
    Detached (render (p :: ps)).toList := by
  rw [render_cons, hp]
  exact detached_cons h

theorem bounds_symbol (s : Symbol) : Bounds (render (symbol s :: ps)).toList := by
  obtain ⟨c, cs, hspelling, hc⟩ :
      ∃ c cs, s.spelling.toList = c :: cs ∧ Lexeme.isWordPart c = false ∧ c ≠ '"' := by
    cases s <;> exact ⟨_, _, rfl, by decide⟩
  have htext : (symbol s).text.toList = c :: cs := hspelling
  rw [render_cons, htext]
  exact bounds_cons hc

theorem detached_space : Detached (render (space :: ps)).toList := detached_render rfl (by decide)

theorem detached_line {indent : Nat} : Detached (render (line indent :: ps)).toList := by
  refine @detached_render _ _ '\n' (List.replicate indent ' ') ?_ (by decide)
  simp [text]

namespace Detached

theorem bounds (h : Detached cs) : Bounds cs := by
  intro c hc
  rcases h c hc with hc | ⟨rfl, -⟩
  · have hset :
        [' ', '\n', ',', ')', ']', '}', '(', '[', '|'].all
          (fun c => !Lexeme.isWordPart c && c != '"') = true := by
      decide
    simpa using List.all_eq_true.1 hset c hc
  · decide

theorem not_goesOn (h : Detached cs) : Rule.goesOn cs = false := by
  cases cs with
  | nil => rfl
  | cons c cs =>
    rcases h c rfl with hc | ⟨rfl, hdigit⟩
    · simp only [List.mem_cons, List.not_mem_nil, or_false] at hc
      rcases hc with rfl | rfl | rfl | rfl | rfl | rfl | rfl | rfl | rfl <;> rfl
    · have hhead : cs.head?.any Char.isDigit = false := by
        cases cs with
        | nil => rfl
        | cons d cs => exact hdigit d rfl
      simp only [Rule.goesOn, hhead]
      decide

private theorem stops (h : Detached cs) (htrivia : l.isTrivia = false)
    (hl : l ∉ [.symbol .bar, .symbol .dot]) :
    l.Stops cs := by
  cases l with
  | keyword k => exact h.bounds
  | identifier text => exact h.bounds
  | number kind text => exact h.not_goesOn
  | string kind text => trivial
  | comment kind text => cases htrivia
  | invalid => trivial
  | symbol s =>
    intro c hc
    simp only [List.mem_cons, Lexeme.symbol.injEq, List.not_mem_nil, or_false, not_or] at hl
    rcases h c hc with hc | ⟨rfl, -⟩
    · simp only [List.mem_cons, List.not_mem_nil, or_false] at hc
      rcases hc with rfl | rfl | rfl | rfl | rfl | rfl | rfl | rfl | rfl <;> cases s <;>
        simp_all [Symbol.growsBy]
    · cases s <;> simp_all [Symbol.growsBy]

end Detached

theorem Piece.Written.detached {code : Bool} {n : Nat} (hspelled : l.WellSpelled)
    (htrivia : l.isTrivia = false)
    (hl : l ∉ [.symbol .bar, .symbol .dot, .symbol .leftBrace, .symbol .rightBrace])
    (hbytes : code = true → ¬l.Misread) (hdetached : Detached (render ps).toList)
    (h : Written code n ps) :
    Written code n (lexeme l :: ps) := by
  simp only [List.mem_cons, List.not_mem_nil, or_false, not_or] at hl
  refine h.of_joined (joined_cons ?_) hspelled htrivia (hdetached.stops htrivia (by simp [hl]))
    hbytes hl.2.2.1 hl.2.2.2
  rintro ⟨⟩
  exact hl.1 rfl

theorem Piece.Written.symbol_detached {code : Bool} {n : Nat} {s : Symbol}
    (hs : s ∉ [.bar, .dot, .leftBrace, .rightBrace])
    (hdetached : Detached (render ps).toList) (h : Written code n ps) :
    Written code n (Piece.symbol s :: ps) := by
  simp only [List.mem_cons, List.not_mem_nil, or_false, not_or] at hs
  exact .detached trivial rfl (by simp [hs]) (fun _ => id) hdetached h

theorem Piece.Written.keyword_detached {code : Bool} {n : Nat} {k : Keyword}
    (hdetached : Detached (render ps).toList) (h : Written code n ps) :
    Written code n (Piece.keyword k :: ps) := h.keyword hdetached.bounds

theorem Name.IsIdentifier.render {x : Name} (hx : x.IsIdentifier) (ps : List Piece) :
    ∃ c cs, (Piece.render (Piece.name x :: ps)).toList = c :: cs ∧ Lexeme.isWordStart c = true := by
  obtain ⟨c, cs, htext, hstart⟩ := hx.word.start
  have hname : (Piece.name x).text.toList = c :: cs := by
    rw [hx.piece]
    exact htext
  rw [render_cons, hname]
  exact ⟨c, _, rfl, hstart⟩

theorem Piece.Written.symbol_name {code : Bool} {n : Nat} {s : Symbol} {x : Name}
    (hs : s ∉ [.bar, .leftBrace, .rightBrace]) (hx : x.IsIdentifier)
    (h : Written code n (Piece.name x :: ps)) :
    Written code n (Piece.symbol s :: Piece.name x :: ps) := by
  obtain ⟨c, cs, htext, hstart⟩ := hx.render ps
  refine h.symbol hs fun d hd => ?_
  rw [htext] at hd
  obtain rfl : c = d := Option.some.inj hd
  rw [Bool.eq_false_iff]
  intro hgrows
  have hsymbols : c ∈ ['|', '>', '=', '.', ':', '/', '*'] := by
    unfold Symbol.growsBy at hgrows
    grind
  have hnone : ['|', '>', '=', '.', ':', '/', '*'].all (fun c => !Lexeme.isWordStart c) =
    true := by decide
  have hword := List.all_eq_true.1 hnone c hsymbols
  rw [hstart] at hword
  cases hword

end Detached

private theorem Piece.le_start_of_tokens {offset : Nat} {ps : List Piece} {x : Token}
    {xs : List Token} (h : tokens offset ps = x :: xs) : offset ≤ x.span.start := by
  induction ps generalizing offset with
  | nil => cases h
  | cons p ps ih =>
    cases p with
    | lexeme l =>
      cases h
      exact Nat.le_refl _
    | space => exact Nat.le_trans (Nat.le_add_right _ _) (ih h)
    | line indent => exact Nat.le_trans (Nat.le_add_right _ _) (ih h)

namespace Grammar

variable {s t u : State} {l l' : Lexeme} {ps qs : List Piece} {bound : Bool}

theorem State.Shows.head_of_touches (h : u.Shows (lexeme l :: ps)) (hl : l ≠ .symbol .bar)
    (htouches : u.currentSpan.touches u.advance.currentSpan = true)
    (hnext : u.advance.current? = some l') (hl' : l' ∉ [.symbol .bar, .symbol .or]) :
    ps.head? = some (lexeme l') := by
  obtain ⟨offset, hafter⟩ := h
  rw [joined_cons (fun heq => hl (Piece.lexeme.inj heq))] at hafter
  have hrest := State.after_advance hafter
  obtain ⟨x, xs, hx, rfl⟩ := State.after_of_current? hnext
  rw [hx] at hrest
  have hspan : u.currentSpan = ⟨offset, offset + Text.byteSize l.spelling.toList⟩ := by
    simp only [State.currentSpan, hafter]
    rfl
  have hspan' : u.advance.currentSpan = x.span := by simp only [State.currentSpan, hx]
  rw [hspan, hspan', Span.touches, beq_iff_eq] at htouches
  change offset + Text.byteSize l.spelling.toList = x.span.start at htouches
  simp only [List.mem_cons, List.not_mem_nil, or_false, not_or] at hl'
  have hblank {n : Nat} {qs : List Piece} (hn : 0 < n)
      (hqs : Piece.tokens (offset + Text.byteSize l.spelling.toList + n) (joined qs) = x :: xs) :
      False := by
    have hle := le_start_of_tokens hqs
    omega
  cases ps with
  | nil => cases hrest
  | cons p ps =>
    cases p with
    | space => exact (hblank Nat.one_pos hrest.symm).elim
    | line indent =>
      refine (hblank ?_ hrest.symm).elim
      rw [text, String.toList_append, Text.byteSize_append]
      exact Nat.add_pos_left Nat.one_pos _
    | lexeme l₁ =>
      by_cases hbar : l₁ = .symbol .bar
      · subst hbar
        cases ps with
        | nil =>
          cases hrest
          exact absurd rfl hl'.1
        | cons p ps =>
          by_cases hp : p = symbol .bar
          · subst hp
            cases hrest
            exact absurd rfl hl'.2
          · rw [show joined (lexeme (.symbol .bar) :: p :: ps) = symbol .bar ::
                joined (p :: ps) from
              joined_bar fun h => hp (Option.some.inj h)] at hrest
            cases hrest
            exact absurd rfl hl'.1
      · rw [joined_cons (fun heq => hbar (Piece.lexeme.inj heq))] at hrest
        cases hrest
        rfl

theorem State.Shows.atNegativeNumber (h : u.Shows ps) (hsign : u.atNegativeNumber = true) :
    ∀ qs, ps = symbol .minus :: qs → ∃ l, qs.head? = some (lexeme l) ∧ l.isSignable = true := by
  rintro qs rfl
  obtain ⟨x, y, rest, hafter, -, hsignable, htouches⟩ := State.atNegativeNumber_iff.1 hsign
  have hadvance := State.after_advance hafter
  refine ⟨y.lexeme, h.head_of_touches (by decide) ?_ ?_ ?_, hsignable⟩
  · simp only [State.currentSpan, hafter, hadvance]
    exact htouches
  · simp [State.current?, State.peek?, hadvance]
  · cases hy : y.lexeme <;> simp_all [Lexeme.isSignable]

/-- A reader that looks ahead sees the same in both states, or at most no object where it saw
one. -/
structure State.Like (s u : State) : Prop where
  role : u.current?.map Lexeme.role = s.current?.map Lexeme.role
  object : u.atOptionalObject = true → s.atOptionalObject = true

def Likes (s : State) (ps : List Piece) : Prop := ∀ u : State, u.Shows ps → s.Like u

namespace State.Like

private theorem current? (h : s.Like u) (hs : s.current? = some l) (hl : l.isDistinct = true) :
    u.current? = some l := by
  have hrole := h.role
  rw [hs, Option.map_some, Option.map_eq_some_iff] at hrole
  obtain ⟨l', hl', hrole⟩ := hrole
  rw [hl', Lexeme.eq_of_role hrole hl]

theorem current?_back (h : s.Like u) (hu : u.current? = some l) (hl : l.isDistinct = true) :
    s.current? = some l := by
  have hrole := h.role
  rw [hu, Option.map_some, eq_comm, Option.map_eq_some_iff] at hrole
  obtain ⟨l', hl', hrole⟩ := hrole
  rw [hl', Lexeme.eq_of_role hrole hl]

theorem sees (h : s.Like u) (hl : l.isDistinct = true) : u.sees l = s.sees l := by
  rw [Bool.eq_iff_iff]
  constructor <;> intro hsees
  · simp [State.sees, h.current?_back (State.current?_of_sees hsees) hl]
  · simp [State.sees, h.current? (State.current?_of_sees hsees) hl]

theorem atExpressionStart (h : s.Like u) : u.atExpressionStart = s.atExpressionStart := by
  have hrole (l : Lexeme) : State.startsExpression l.role = State.startsExpression l := by
    unfold Lexeme.role
    split <;> rfl
  have hany (o : Option Lexeme) :
      o.any State.startsExpression = (o.map Lexeme.role).any State.startsExpression := by
    cases o with
    | none => rfl
    | some l => exact (hrole l).symm
  rw [State.atExpressionStart, State.atExpressionStart, hany, h.role, ← hany]

end State.Like

theorem Likes.space (h : Likes s ps) : Likes s (space :: ps) := fun u hu => h u hu.space

theorem Likes.line (indent : Nat) (h : Likes s ps) : Likes s (line indent :: ps) :=
  fun u hu => h u hu.line

/-- What begins with a lexeme that opens no brace and is no bar. -/
theorem likes_lexeme (hs : s.current?.map Lexeme.role = some l.role) (hbar : l ≠ .symbol .bar)
    (hbrace : l ≠ .symbol .leftBrace) : Likes s (lexeme l :: ps) := by
  intro u hu
  have hcurrent := hu.current? hbar
  refine ⟨by rw [hcurrent, hs, Option.map_some], fun hobject => ?_⟩
  have hsees : u.sees (.symbol .leftBrace) = true := by
    unfold State.atOptionalObject State.atObjectStart at hobject
    simp only [Bool.or_eq_true, Bool.and_eq_true] at hobject
    rcases hobject with hobject | hobject
    · exact hobject.1.1
    · exact hobject.1
  rw [hu.sees hbar] at hsees
  exact absurd (beq_iff_eq.1 hsees) hbrace

theorem likes_leftBrace (hs : s.sees (.symbol .leftBrace) = true)
    (hobject : ∀ u : State, u.Shows (symbol .leftBrace :: ps) → u.atOptionalObject = true →
    s.atOptionalObject = true) :
    Likes s (symbol .leftBrace :: ps) := by
  intro u hu
  refine ⟨?_, hobject u hu⟩
  rw [hu.current? (by decide), State.current?_of_sees hs]

/-- What is ahead of a node is like the pieces behind it. Where the node takes all operators behind
it, two bars are not read as one, nor a number against a minus sign as one with it. -/
structure Ahead (bound : Bool) (t : State) (qs : List Piece) : Prop where
  likes : Likes t qs
  bars : bound = true → ∀ u : State, u.Shows qs → u.sees (.symbol .or) = true →
    t.sees (.symbol .or) = true
  unsigned : bound = true → ∀ u : State, u.Shows qs → u.atNegativeNumber = false

namespace Ahead

private theorem space (h : Ahead bound t qs) : Ahead bound t (space :: qs) where
  likes := h.likes.space
  bars hbound u hu := h.bars hbound u hu.space
  unsigned hbound u hu := h.unsigned hbound u hu.space

private theorem line (indent : Nat) (h : Ahead bound t qs) : Ahead bound t (line indent :: qs) where
  likes := h.likes.line indent
  bars hbound u hu := h.bars hbound u hu.line
  unsigned hbound u hu := h.unsigned hbound u hu.line

theorem lexeme (h : Likes t (lexeme l :: qs)) (hbar : l ≠ .symbol .bar)
    (hor : l = .symbol .or → t.sees (.symbol .or) = true)
    (hminus : l = .symbol .minus → ∀ l', qs.head? = some (Piece.lexeme l') →
    l'.isSignable = false) :
    Ahead bound t (Piece.lexeme l :: qs) where
  likes := h
  bars _ u hu hsees := by
    rw [hu.sees hbar, beq_iff_eq] at hsees
    exact hor hsees
  unsigned _ u hu := by
    rw [Bool.eq_false_iff]
    intro hsign
    have hcurrent := hu.current? hbar
    by_cases hl : l = .symbol .minus
    · subst hl
      obtain ⟨l', hhead, hsignable⟩ := hu.atNegativeNumber hsign _ rfl
      rw [hminus rfl l' hhead] at hsignable
      cases hsignable
    · rw [State.atNegativeNumber_of_current? hcurrent hl] at hsign
      cases hsign

theorem nil (ht : t.after = []) : Ahead bound t [] := by
  have hnone {u : State} (hu : u.after = []) : u.current? = none := by
    simp [State.current?, State.peek?, hu]
  have hsees {u : State} (hu : u.after = []) (l : Lexeme) : u.sees l = false := by
    simp [State.sees, hnone hu]
  refine ⟨fun u hu => ⟨by rw [hnone hu.nil, hnone ht], fun h => ?_⟩, fun _ u hu h =>
    ?_, fun _ u hu => ?_⟩
  · simp [State.atOptionalObject, State.atObjectStart, hsees hu.nil] at h
  · rw [hsees hu.nil] at h
    cases h
  · simp [State.atNegativeNumber, hu.nil]

theorem of_likes (h : Likes t qs) (hoperator : bound = true → t.atOperator = false)
    (hbars : bound = true → ∀ u : State, u.Shows qs → u.sees (.symbol .or) = true →
    t.sees (.symbol .or) = true) :
    Ahead bound t qs where
  likes := h
  bars := hbars
  unsigned hbound u hu := by
    rw [Bool.eq_false_iff]
    intro hsign
    obtain ⟨x, y, rest, hafter, hminus, -⟩ := State.atNegativeNumber_iff.1 hsign
    have hcurrent : u.current? = some (.symbol .minus) := by
      simp [State.current?, State.peek?, hafter, hminus]
    have hoperator := hoperator hbound
    rw [State.atOperator, (h u hu).current?_back hcurrent rfl] at hoperator
    cases hoperator

end Ahead

structure Edge (bound : Bool) (t : State) (qs : List Piece) : Prop extends Ahead bound t qs where
  detached : Detached (render qs).toList

theorem Ahead.edge_space (h : Ahead bound t qs) : Edge bound t (Piece.space :: qs) :=
  ⟨h.space, detached_space⟩

theorem Ahead.edge_line (indent : Nat) (h : Ahead bound t qs) :
    Edge bound t (Piece.line indent :: qs) :=
  ⟨h.line indent, detached_line⟩

/-- Nothing is written against the expression that would be read as part of an emission at its
end. -/
def Gap (e : Expr) (qs : List Piece) : Prop :=
  ∀ s, qs.head? = some (symbol s) → e.tail.takes s = false

theorem gap_space (e : Expr) : Gap e (space :: qs) := nofun

theorem gap_line (e : Expr) (indent : Nat) : Gap e (line indent :: qs) := nofun

/-- Behind the node is a comma or the closer of a list or of an index, and is written so. -/
def Closed (t : State) (qs : List Piece) : Prop :=
  ∃ s ∈ [Symbol.comma, .rightParen, .rightBracket, .rightBrace], ∃ ps, qs = symbol s :: ps ∧
    t.current?.map Lexeme.role = some (Lexeme.symbol s).role

namespace Closed

theorem edge (h : Closed t qs) : Edge bound t qs := by
  obtain ⟨s, hs, ps, rfl, hrole⟩ := h
  simp only [List.mem_cons, List.not_mem_nil, or_false] at hs
  rcases hs with rfl | rfl | rfl | rfl <;>
  exact ⟨.lexeme (likes_lexeme hrole (by decide) (by decide)) (by decide) nofun nofun,
    detached_render rfl (by decide)⟩

theorem gap (h : Closed t qs) (e : Expr) : Gap e qs := by
  obtain ⟨s, hs, ps, rfl, -⟩ := h
  rintro s' hs'
  cases hs'
  simp only [List.mem_cons, List.not_mem_nil, or_false] at hs
  unfold Expr.takes
  rcases hs with rfl | rfl | rfl | rfl <;> split <;> simp_all

end Closed

theorem edge_of_sees (ht : t.sees l = true)
    (hl : l ∉ [.symbol .bar, .symbol .leftBrace, .symbol .minus]) :
    Edge bound t (space :: lexeme l :: ps) := by
  simp only [List.mem_cons, List.not_mem_nil, or_false, not_or] at hl
  refine Ahead.edge_space (.lexeme (likes_lexeme ?_ hl.1 hl.2.1) hl.1 (fun hor => hor ▸ ht) fun h =>
    absurd h hl.2.2)
  rw [State.current?_of_sees ht, Option.map_some]

theorem edge_leftBrace (h : Likes t (symbol .leftBrace :: ps)) :
    Edge bound t (space :: symbol .leftBrace :: ps) :=
  Ahead.edge_space (.lexeme h nofun nofun nofun)

section Spaced

variable {α : Type} [Placed α] {code : Bool} {p : Parser α} {a : α} {n m : Nat} {all : List Piece}
    {expected : Expectation}

theorem Echo.spaced (h : Echo code p a n all m (Piece.space :: qs)) : Echo code p a n all m qs where
  written hqs := h.written hqs.space
  answers hu := by
    obtain ⟨a', v, ha', hsame, hv, hlog⟩ := h.answers hu
    exact ⟨a', v, ha', hsame, hv.space, hlog⟩

theorem Echo.keyword_space {k : Keyword} :
    Echo code (Grammar.expect (.keyword k)) .nowhere n
      (Piece.keyword k :: Piece.space :: qs) n qs :=
  (Echo.expect (l := .keyword k) nofun (.keyword_detached detached_space)).spaced

theorem Echo.symbol_space {s : Symbol} (hs : s ∉ [.bar, .dot, .leftBrace, .rightBrace]) :
    Echo code (Grammar.expect (.symbol s)) .nowhere n (Piece.symbol s :: Piece.space :: qs)
      n qs := by
  refine (Echo.expect ?_ (.symbol_detached hs detached_space)).spaced
  rintro ⟨⟩
  exact hs List.mem_cons_self

theorem Echo.name_space {x : Name} (hx : x.IsIdentifier) :
    Echo code (Grammar.name expected) x n (Piece.name x :: Piece.space :: qs) n qs :=
  (Echo.name hx detached_space.bounds).spaced

end Spaced

theorem closed_of_sees {s : Symbol}
    (hs : s ∈ [Symbol.comma, .rightParen, .rightBracket, .rightBrace])
    (ht : t.sees (.symbol s) = true) : Closed t (symbol s :: ps) :=
  ⟨s, hs, ps, rfl, by rw [State.current?_of_sees ht, Option.map_some]⟩

end Grammar

end ApiScript
