import ApiScript.Proofs.Ladder.Plain
import ApiScript.Proofs.Ladder.Readers
import ApiScript.Proofs.Spans.Respan

set_option autoImplicit false
set_option relaxedAutoImplicit false

/-!
Plain expressions on the ladder are read from their lexemes: each reader stops right behind the
expression, if what follows binds it less tightly than the operators of the reader.
-/

namespace ApiScript

/-- How tightly a lexeme binds the expression in front of it. -/
def Lexeme.tightness (l : Lexeme) : Nat :=
  match l with
  | .symbol .dot | .symbol .leftBracket | .symbol .leftParen => 9
  | .symbol .pipe => 1
  | l => ((BinaryOp.ofLexeme? l).map (·.precedence)).getD 0

private theorem BinaryOp.tightness_lexeme (op : BinaryOp) :
    op.lexeme.tightness = op.precedence := by cases op <;> rfl

private theorem BinaryOp.ofLexeme?_lexeme (op : BinaryOp) :
    BinaryOp.ofLexeme? op.lexeme = some op := by cases op <;> decide

private theorem Lexeme.tightness_lt (l : Lexeme) : l.tightness < 10 := by
  unfold Lexeme.tightness
  split
  case h_5 =>
    cases h : BinaryOp.ofLexeme? l with
    | none => exact Nat.zero_lt_succ _
    | some op => exact Nat.lt_of_lt_of_le op.precedence_lt (by decide)
  all_goals decide

namespace Expr

variable {room : Nat} {e e' : Expr}

theorem le_tightness {k : Nat} (hk : k ≤ 8) (hpipe : e.isPipe = false)
    (hop : ∀ op ∈ e.operator?, k ≤ op.precedence) : k ≤ e.tightness := by
  cases e with
  | pipe => cases hpipe
  | binary s op left right => exact hop op rfl
  | unary | emit => exact hk
  | _ => exact Nat.le_succ_of_le hk

section Lexemes

variable {s : Span}

theorem lexemes_name (n : Name) : (name n).lexemes = [n.lexeme] := by
  rw [lexemes, layout]
  rfl

theorem lexemes_paren :
    (paren s e).lexemes = .symbol .leftParen :: (e.lexemes ++ [.symbol .rightParen]) := by
  rw [lexemes, layout, Piece.lexemes, List.filterMap_append, List.filterMap_append]
  rfl

theorem lexemes_pipe {left right : Expr} :
    (pipe s left right).lexemes = left.lexemes ++ .symbol .pipe :: right.lexemes := by
  rw [lexemes, layout, Piece.lexemes, List.filterMap_append, List.filterMap_append,
    List.append_assoc]
  rfl

theorem lexemes_binary {op : BinaryOp} {left right : Expr} :
    (binary s op left right).lexemes = left.lexemes ++ op.lexeme :: right.lexemes := by
  rw [lexemes, layout, Piece.lexemes, List.filterMap_append, List.filterMap_append,
    List.append_assoc]
  rfl

theorem lexemes_unary {op : UnaryOp} (h : Plain room e) :
    (unary s op e).lexemes = op.lexeme :: e.lexemes := by
  rw [lexemes, layout_unary _ _ h.ne_literal]
  rfl

theorem lexemes_member {field : Name} :
    (member s e field).lexemes = e.lexemes ++ [.symbol .dot, field.lexeme] := by
  rw [lexemes, layout, Piece.lexemes, List.filterMap_append]
  rfl

theorem lexemes_index {i : Expr} :
    (index s e i).lexemes = e.lexemes ++ .symbol .leftBracket ::
    (i.lexemes ++ [.symbol .rightBracket]) := by
  rw [lexemes, layout, Piece.lexemes, List.filterMap_append, List.filterMap_append,
    List.filterMap_append, List.append_assoc, List.append_assoc]
  rfl

theorem lexemes_call {args : List Expr} :
    (call s e args).lexemes = e.lexemes ++ .symbol .leftParen ::
    (lexemesOfArgs args ++ [.symbol .rightParen]) := by
  rw [lexemes, layout, Piece.lexemes, List.filterMap_append, List.filterMap_append,
    List.filterMap_append, List.append_assoc, List.append_assoc]
  rfl

theorem lexemesOfArgs_cons {args : List Expr} :
    lexemesOfArgs (e :: args) = e.lexemes ++ args.flatMap fun a => .symbol .comma :: a.lexemes := by
  induction args generalizing e with
  | nil => simp [lexemesOfArgs, layoutAll, lexemes, Piece.lexemes, Piece.comma]
  | cons a args ih =>
    rw [lexemesOfArgs, layoutAll, Piece.lexemes, List.filterMap_append, List.filterMap_append,
      List.append_assoc]
    rw [List.flatMap_cons, List.cons_append, ← ih]
    rfl

private theorem Plain.leads (h : Plain room e) :
    ∃ l ls, e.lexemes = l :: ls ∧ Grammar.State.startsExpression l = true ∧
    l.isSignable = false := by
  induction h with
  | @name _ n h => exact ⟨_, _, lexemes_name n, by rw [Name.lexeme, h.identifier]; exact ⟨rfl, rfl⟩⟩
  | paren => exact ⟨_, _, lexemes_paren, rfl, rfl⟩
  | @unary _ _ op _ h => exact ⟨_, _, lexemes_unary h, by cases op <;> exact ⟨rfl, rfl⟩⟩
  | pipe _ _ ih =>
    obtain ⟨l, ls, hlexemes, hl⟩ := ih
    exact ⟨l, _, by rw [lexemes_pipe, hlexemes]; rfl, hl⟩
  | binary _ _ ih =>
    obtain ⟨l, ls, hlexemes, hl⟩ := ih
    exact ⟨l, _, by rw [lexemes_binary, hlexemes]; rfl, hl⟩
  | member _ _ ih =>
    obtain ⟨l, ls, hlexemes, hl⟩ := ih
    exact ⟨l, _, by rw [lexemes_member, hlexemes]; rfl, hl⟩
  | index _ _ ih =>
    obtain ⟨l, ls, hlexemes, hl⟩ := ih
    exact ⟨l, _, by rw [lexemes_index, hlexemes]; rfl, hl⟩
  | call _ _ _ ih =>
    obtain ⟨l, ls, hlexemes, hl⟩ := ih
    exact ⟨l, _, by rw [lexemes_call, hlexemes]; rfl, hl⟩

end Lexemes

end Expr

namespace Grammar

namespace State

variable {s : State} {l : Lexeme} {ls : List Lexeme}

def lexemes (s : State) : List Lexeme := s.after.map (·.lexeme)

private theorem current?_eq (s : State) : s.current? = s.lexemes.head? := by
  cases h : s.after <;> simp [current?, peek?, lexemes, h]

private theorem current?_of_lexemes (h : s.lexemes = l :: ls) : s.current? = some l := by
  rw [current?_eq, h, List.head?_cons]

private theorem sees_of_lexemes (h : s.lexemes = l :: ls) : s.sees l = true := by
  simp [sees, current?_of_lexemes h]

private theorem sees_eq_false (h : s.lexemes = l :: ls) {other : Lexeme} (hne : l ≠ other) :
    s.sees other = false := by
  simp [sees, current?_of_lexemes h, hne]

private theorem lexemes_advance (h : s.lexemes = l :: ls) :
    s.advance.lexemes = ls ∧ s.advance.log = s.log := by
  cases hs : s.after with
  | nil => simp [lexemes, hs] at h
  | cons t ts =>
    simp only [lexemes, hs, List.map_cons, List.cons.injEq] at h
    exact ⟨by simp [lexemes, advance, hs, h.2], by simp [advance, hs]⟩

private theorem atNegativeNumber_eq_false {m : Lexeme} (h : s.lexemes = l :: m :: ls)
    (hm : m.isSignable = false) :
    s.atNegativeNumber = false := by
  match hs : s.after with
  | [] | [_] => simp [lexemes, hs] at h
  | minus :: number :: rest =>
    simp only [lexemes, hs, List.map_cons, List.cons.injEq] at h
    simp [atNegativeNumber, hs, h.2.1, hm]

end State

variable {inner : Inner} {room : Nat} {e : Expr} {k : Nat}

/-- The expression `e'` was read from `s`, up to places the expression `e`, and the lexemes `rest`
are left. -/
structure Reread (e : Expr) (rest : List Lexeme) (s : State) (e' : Expr) (t : State) : Prop where
  bare : e'.bare = e.bare
  rest : t.lexemes = rest
  log : t.log = s.log

/-- What stands in front of the lexemes is bound less tightly than `k` by them. -/
def Loose (k : Nat) (rest : List Lexeme) : Prop := ∀ l ∈ rest.head?, l.tightness < k

private theorem loose_cons {l : Lexeme} {ls : List Lexeme} (h : l.tightness < k) :
    Loose k (l :: ls) := by
  rintro m ⟨⟩
  exact h

/-- The reader reads the expression where what follows binds it less tightly than `k`. -/
def Rereads (p : Parser Expr) (k : Nat) (e : Expr) : Prop :=
  ∀ ⦃s rest⦄, s.lexemes = e.lexemes ++ rest → Loose k rest → ∃ e' t, Reads p s e' t ∧
    Reread e rest s e' t

/-- Where what follows binds the expression less tightly than `k`, some rounds of the step, behind a
start, lead to it. -/
def Grows (start : State → Expr → State → Prop) (step : Expr → Parser (Option Expr)) (k : Nat)
    (e : Expr) : Prop :=
  ∀ ⦃s rest⦄, s.lexemes = e.lexemes ++ rest → Loose k rest → ∃ first s₁ e' t, start s first s₁ ∧
    Reread e rest s e' t ∧ ∀ {c u}, Rounds step e' t c u → Rounds step first s₁ c u

private theorem Rereads.grows {p : Parser Expr} (h : Rereads p k e)
    (step : Expr → Parser (Option Expr)) :
    Grows (Reads p) step k e := by
  intro s rest hs hrest
  obtain ⟨e', t, he', hread⟩ := h hs hrest
  exact ⟨e', t, e', t, he', hread, id⟩

private theorem Grows.more {start : State → Expr → State → Prop}
    {step : Expr → Parser (Option Expr)} {whole : Expr} {tail : List Lexeme}
    (h : Grows start step k e) (hlexemes : whole.lexemes = e.lexemes ++ tail)
    (hloose : ∀ rest, Loose k (tail ++ rest))
    (hround : ∀ {e' t rest}, e'.bare = e.bare → t.lexemes = tail ++ rest → Loose k rest →
      ∃ w u, Reads (step e') t (some w) u ∧ Reread whole rest t w u) :
      Grows start step k whole := by
  intro s rest hs hrest
  rw [hlexemes, List.append_assoc] at hs
  obtain ⟨first, s₁, e', t, hfirst, hread, hrounds⟩ := h hs (hloose rest)
  obtain ⟨w, u, hw, hread'⟩ := hround hread.bare hread.rest hrest
  exact ⟨first, s₁, w, u, hfirst, ⟨hread'.bare, hread'.rest, hread'.log.trans hread.log⟩, fun h =>
    hrounds (.more hw h)⟩

private theorem Grows.finish {p : Parser Expr} {step : Expr → Parser (Option Expr)} {j : Nat}
    (h : Grows (Reads p) step k e) (hjk : j ≤ k) (hstep : Productive step)
    (hnone : ∀ {e' t}, (∀ l ∈ t.current?, l.tightness < j) → Reads (step e') t none t) :
    Rereads (p >>= repeated step) j e := by
  intro s rest hs hrest
  obtain ⟨first, s₁, e', t, hfirst, hread, hrounds⟩ :=
    h hs fun l hl => Nat.lt_of_lt_of_le (hrest l hl) hjk
  refine ⟨e', t, reads_bind.2 ⟨first, s₁, hfirst, ?_⟩, hread⟩
  rw [reads_repeated hstep]
  refine hrounds (.done (hnone ?_))
  rw [State.current?_eq, hread.rest]
  exact hrest

section Extend

variable {Op : Type} {operator? : Lexeme → Option Op} {right : Op → Parser Expr}
  {combine : Span → Op → Expr → Expr → Expr}

private theorem extend?_round {left e' : Expr} {s t : State} {l : Lexeme} {op : Op}
    (hl : s.current? = some l) (hop : operator? l = some op)
    (hstart : s.advance.atExpressionStart = true) (h : Reads (right op) s.advance e' t) :
    Reads (extend? operator? right combine left) s
      (some (combine (left.span.merge e'.span) op left e')) t := by
  unfold extend?
  rw [reads_get_bind]
  simp only [hl, hop, reads_bind, reads_advance, reads_operand, reads_pure, and_assoc,
    exists_and_left, exists_eq_left, exists_const]
  exact ⟨hstart, e', t, h, rfl, rfl⟩

theorem extend?_end (hop : ∀ l op, operator? l = some op → l.tightness = k) {left : Expr}
    {s : State} (h : ∀ l ∈ s.current?, l.tightness < k) :
    Reads (extend? operator? right combine left) s none s := by
  unfold extend?
  rw [reads_get_bind]
  cases hl : s.current? with
  | none => exact reads_pure.2 ⟨rfl, rfl⟩
  | some l =>
    cases hl' : operator? l with
    | none =>
      simp only [hl']
      exact reads_pure.2 ⟨rfl, rfl⟩
    | some op => exact absurd (hop l op hl') (Nat.ne_of_lt (h l hl))

private theorem Grows.extend {start : State → Expr → State → Prop} {left e : Expr} {l : Lexeme}
    {op : Op} {s : Span} (hleft : Grows start (extend? operator? right combine) (k + 1) left)
    (hright : Rereads (right op) (k + 1) e) (hplain : e.Plain room) (hop : operator? l = some op)
    (hl : l.tightness = k)
    (hlexemes : (combine s op left e).lexemes = left.lexemes ++ l :: e.lexemes)
    (hbare : ∀ {s' left' e'}, left'.bare = left.bare → e'.bare = e.bare →
      (combine s' op left' e').bare = (combine s op left e).bare) :
    Grows start (extend? operator? right combine) (k + 1) (combine s op left e) := by
  refine hleft.more hlexemes (fun rest => loose_cons (Nat.lt_succ_of_le (Nat.le_of_eq hl))) ?_
  intro left' t rest hbare' ht hrest
  obtain ⟨hadvance, hlog⟩ := State.lexemes_advance ht
  obtain ⟨e', u, he', hread⟩ := hright hadvance hrest
  obtain ⟨m, ms, hm, hstarts, _⟩ := hplain.leads
  have hstart : t.advance.atExpressionStart = true := by
    rw [hm] at hadvance
    simpa [State.atExpressionStart, State.current?_of_lexemes hadvance] using hstarts
  exact ⟨_, u, extend?_round (State.current?_of_lexemes ht) hop hstart he', hbare hbare' hread.bare,
    hread.rest, hread.log.trans hlog⟩

end Extend

section Suffixes

variable {s t u : State}

theorem unaryOp?_of_primary (h : Reads (primary inner) s e t) : unaryOp? s = none := by
  have hsigned (hs : s.current? = some (.symbol .minus) ∨ s.current? = some (.symbol .not)) :
      s.atNegativeNumber = true := by
    unfold primary at h
    rw [reads_get_bind] at h
    rcases hs with hs | hs <;>
    · simp only [hs, reads_ite, reads_unexpected, and_false, or_false] at h
      simpa [State.atLiteral, hs, Lexeme.isLiteral] using h.1
  unfold unaryOp?
  split
  · rename_i hs
    have hnumber := hsigned (.inr hs)
    unfold State.atNegativeNumber at hnumber
    split at hnumber
    · rename_i hafter
      simp only [State.current?, State.peek?, hafter, List.getElem?_cons_zero, Option.map_some,
        Option.some.injEq] at hs
      simp [hs] at hnumber
    · cases hnumber
  · rw [if_pos (hsigned (.inl ‹_›))]
  · rfl

def Starts (inner : Inner) (s : State) (e : Expr) (t : State) : Prop :=
  Reads (primary inner) s e t ∧ e.isEmission = false

theorem reads_postfixed {first : Expr} (h : Starts inner s first t)
    (hrest : Reads (repeated (suffix? inner) first) t e u) :
    Reads (postfixed inner) s e u := by
  obtain ⟨hfirst, hemission⟩ := h
  refine reads_bind.2 ⟨first, t, hfirst, ?_⟩
  cases first with
  | emit => cases hemission
  | _ => exact hrest

theorem suffix?_end (h : ∀ l ∈ s.current?, l.tightness < 9) : Reads (suffix? inner e) s none s := by
  unfold suffix?
  rw [reads_get_bind]
  split
  case h_4 => exact reads_pure.2 ⟨rfl, rfl⟩
  all_goals
    rename_i hs
    exact absurd (h _ hs) (by decide)

private theorem bare_name (n : Name) : (Expr.name n).bare = .name ⟨n.text, .nowhere⟩ := by
  rw [Expr.bare, Expr.respan]
  rfl

private theorem reads_plainName (expected : Expectation) {n : Name} {rest : List Lexeme}
    (hn : n.Plain) (h : s.lexemes = n.lexeme :: rest) :
    Reads (name expected) s ⟨n.text, s.currentSpan⟩ s.advance ∧ s.advance.lexemes = rest ∧
    s.advance.log = s.log := by
  refine ⟨reads_name.2 ⟨?_, rfl, rfl⟩, State.lexemes_advance h⟩
  rw [State.current?_of_lexemes h, Name.lexeme, hn.identifier]

variable {start : State → Expr → State → Prop} {span : Span}

private theorem Grows.member {field : Name} (h : Grows start (suffix? inner) 10 e)
    (hfield : field.Plain) :
    Grows start (suffix? inner) 10 (.member span e field) := by
  refine h.more Expr.lexemes_member (fun rest => loose_cons (by decide)) ?_
  intro e' t rest hbare ht _
  obtain ⟨hdot, hdotlog⟩ := State.lexemes_advance ht
  obtain ⟨hname, hrest, hlog⟩ := reads_plainName .memberName hfield hdot
  refine ⟨.member (e'.span.merge t.advance.currentSpan) e' ⟨field.text, t.advance.currentSpan⟩,
    t.advance.advance, ?_, ?_⟩
  · unfold suffix?
    rw [reads_get_bind]
    simp only [State.current?_of_lexemes ht, reads_bind, reads_advance, reads_pure, exists_const,
      exists_eq_left]
    exact ⟨_, _, hname, rfl, rfl⟩
  · refine ⟨?_, hrest, hlog.trans hdotlog⟩
    simp only [Expr.bare, Expr.respan] at hbare ⊢
    rw [hbare]
    rfl

private theorem Grows.index {i : Expr} (h : Grows start (suffix? inner) 10 e)
    (hi : Rereads (inner .expression) 1 i) :
    Grows start (suffix? inner) 10 (.index span e i) := by
  refine h.more Expr.lexemes_index (fun rest => loose_cons (by decide)) ?_
  intro e' t rest hbare ht _
  obtain ⟨hopen, hopenlog⟩ := State.lexemes_advance ht
  rw [List.append_eq, List.append_assoc] at hopen
  obtain ⟨i', u, hi', hread⟩ := hi hopen (loose_cons (by decide))
  obtain ⟨hclose, hcloselog⟩ := State.lexemes_advance hread.rest
  refine ⟨.index (e'.span.merge u.currentSpan) e' i', u.advance, ?_, ?_⟩
  · unfold suffix?
    rw [reads_get_bind]
    simp only [State.current?_of_lexemes ht, reads_bind, reads_advance, reads_close, reads_pure,
      exists_const, exists_eq_left]
    exact ⟨i', u, hi', _, _, ⟨State.sees_of_lexemes hread.rest, rfl, rfl⟩, rfl, rfl⟩
  · refine ⟨?_, hclose, by rw [hcloselog, hread.log, hopenlog]⟩
    have hindex := hread.bare
    simp only [Expr.bare, Expr.respan] at hbare hindex ⊢
    rw [hbare, hindex]

private theorem continues_arguments {args : List Expr}
    (hargs : ∀ a ∈ args, Rereads (inner .expression) 1 a) {rest : List Lexeme}
    (hs : s.lexemes = (args.flatMap fun a => .symbol .comma :: a.lexemes) ++
      .symbol .rightParen :: rest) :
    ∃ args' t, Continues (.symbol .rightParen) false (inner .expression) s args' t ∧
      args'.map Expr.bare = args.map Expr.bare ∧ t.lexemes = .symbol .rightParen :: rest ∧
      t.log = s.log := by
  induction args generalizing s with
  | nil => exact ⟨[], s, .bare (by simp [State.sees_eq_false hs]), rfl, hs, rfl⟩
  | cons a args ih =>
    obtain ⟨ha, hargs⟩ := List.forall_mem_cons.1 hargs
    rw [List.flatMap_cons, List.cons_append, List.cons_append, List.append_assoc] at hs
    obtain ⟨hcomma, hcommalog⟩ := State.lexemes_advance hs
    have hloose :
        Loose 1 ((args.flatMap fun a => .symbol .comma :: a.lexemes) ++
          .symbol .rightParen :: rest) := by
      cases args with
      | nil => exact loose_cons (by decide)
      | cons b args => exact loose_cons (by decide)
    obtain ⟨a', u, ha', hread⟩ := ha hcomma hloose
    obtain ⟨args', t, hrest, hbare, ht, hlog⟩ := ih hargs hread.rest
    refine ⟨a' :: args', t, .more (State.sees_of_lexemes hs) (by simp) ha' hrest, ?_, ht, ?_⟩
    · rw [List.map_cons, List.map_cons, hread.bare, hbare]
    · rw [hlog, hread.log, hcommalog]

private theorem reads_plainArguments [∀ e, Advances (inner e)] {args : List Expr}
    (hplain : ∀ a ∈ args, ∃ room, Expr.Plain room a)
    (hargs : ∀ a ∈ args, Rereads (inner .expression) 1 a) {rest : List Lexeme}
    (hs : s.lexemes = .symbol .leftParen ::
    (Expr.lexemesOfArgs args ++ .symbol .rightParen :: rest)) :
    ∃ args' closer t, Reads (arguments inner) s (args', closer) t ∧
      args'.map Expr.bare = args.map Expr.bare ∧
      t.lexemes = rest ∧ t.log = s.log := by
  obtain ⟨hopen, hopenlog⟩ := State.lexemes_advance hs
  have harguments {args' : List Expr} {closer : Span} {t : State}
      (h : Reads (delimited .parenthesis false s.currentSpan (inner .expression)) s.advance
        (args', closer) t) :
      Reads (arguments inner) s (args', closer) t :=
    reads_arguments.2 ⟨_, _, reads_expect.2 ⟨State.sees_of_lexemes hs, rfl, rfl⟩, h⟩
  cases args with
  | nil =>
    obtain ⟨hclose, hcloselog⟩ := State.lexemes_advance hopen
    exact ⟨[], _, _, harguments (reads_delimited.2 (.inl ⟨State.sees_of_lexemes hopen, rfl, rfl⟩)),
      rfl, hclose, hcloselog.trans hopenlog⟩
  | cons a args =>
    obtain ⟨ha, hargs⟩ := List.forall_mem_cons.1 hargs
    obtain ⟨room, haplain⟩ := hplain a List.mem_cons_self
    obtain ⟨l, ls, hl, hstarts, _⟩ := haplain.leads
    rw [Expr.lexemesOfArgs_cons, List.append_assoc] at hopen
    have hfirst : s.advance.sees (.symbol .rightParen) = false := by
      rw [hl] at hopen
      refine State.sees_eq_false hopen ?_
      rintro rfl
      cases hstarts
    have hloose :
        Loose 1 ((args.flatMap fun a => .symbol .comma :: a.lexemes) ++
          .symbol .rightParen :: rest) := by
      cases args with
      | nil => exact loose_cons (by decide)
      | cons b args => exact loose_cons (by decide)
    obtain ⟨a', u, ha', hread⟩ := ha hopen hloose
    obtain ⟨args', t, hrest, hbare, ht, hlog⟩ := continues_arguments hargs hread.rest
    obtain ⟨hclose, hcloselog⟩ := State.lexemes_advance ht
    refine ⟨a' :: args', t.currentSpan, t.advance, harguments ?_, ?_, hclose, ?_⟩
    · exact reads_delimited.2
        (.inr ⟨by simp [Delimiter.closer, hfirst], a', u, args', t, ha', hrest,
        State.sees_of_lexemes ht, rfl, rfl⟩)
    · rw [List.map_cons, List.map_cons, hread.bare, hbare]
    · rw [hcloselog, hlog, hread.log, hopenlog]

private theorem Grows.call [∀ e, Advances (inner e)] {args : List Expr}
    (h : Grows start (suffix? inner) 10 e) (hplain : ∀ a ∈ args, ∃ room, Expr.Plain room a)
    (hargs : ∀ a ∈ args, Rereads (inner .expression) 1 a) :
    Grows start (suffix? inner) 10 (.call span e args) := by
  refine h.more Expr.lexemes_call (fun rest => loose_cons (by decide)) ?_
  intro e' t rest hbare ht _
  have ht' := ht
  rw [List.cons_append, List.append_assoc] at ht'
  obtain ⟨args', closer, u, hread, hbares, hrest, hlog⟩ := reads_plainArguments hplain hargs ht'
  refine ⟨.call (e'.span.merge closer) e' args', u, ?_, ?_, hrest, hlog⟩
  · unfold suffix?
    rw [reads_get_bind]
    simp only [State.current?_of_lexemes ht, reads_bind, reads_pure]
    exact ⟨_, _, hread, rfl, rfl⟩
  · have hbares :
      args'.map (Expr.respan fun _ => .nowhere) = args.map (Expr.respan fun _ => .nowhere) := hbares
    simp only [Expr.bare, Expr.respan, Expr.respanAll_eq_map] at hbare ⊢
    rw [hbare, hbares]

end Suffixes

section Levels

private theorem operatorOf_precedence_lexeme (op : BinaryOp) :
    operatorOf op.precedence op.lexeme = some op := by
  simp [operatorOf, op.ofLexeme?_lexeme]

theorem tightness_of_operatorOf {l : Lexeme} {op : BinaryOp} (h : operatorOf k l = some op) :
    l.tightness = k := by
  rw [← operatorOf_lexeme h, op.tightness_lexeme, operatorOf_precedence h]

theorem tightness_of_pipeOf {l : Lexeme} {u : Unit} (h : pipeOf l = some u) : l.tightness = 1 := by
  unfold pipeOf at h
  split at h
  · rename_i hl
    rw [hl]
    rfl
  · cases h

/-- A plain expression is read by all readers that are not above it on the ladder. -/
structure Returns (inner : Inner) (e : Expr) : Prop where
  suffixed (h : 9 ≤ e.tightness) : Grows (Starts inner) (suffix? inner) 10 e
  level {k : Nat} (hlow : 2 ≤ k) (hhigh : k ≤ 8) (h : k ≤ e.tightness) :
    Rereads (binary inner (levels k)) k e
  grown {k : Nat} (hlow : 2 ≤ k) (hhigh : k < 8) (h : k ≤ e.tightness) :
    Grows (Reads (binary inner (levels (k + 1))))
      (extend? (operatorOf k) (fun _ => binary inner (levels (k + 1))) .binary)
      (k + 1) e
  piped : Grows (Reads (binary inner BinaryOp.precedences))
    (extend? pipeOf (fun _ => binary inner BinaryOp.precedences) fun span _ => .pipe span) 2 e

variable [∀ e, Advances (inner e)]

private theorem Returns.pipe (h : Returns inner e) : Rereads (pipe inner) 1 e := by
  rw [pipe_eq]
  exact h.piped.finish (by decide) extend?_productive (extend?_end fun _ _ => tightness_of_pipeOf)

private theorem Grows.level (h : Grows (Reads (binary inner (levels (k + 1))))
    (extend? (operatorOf k) (fun _ => binary inner (levels (k + 1))) .binary)
    (k + 1) e) (hk : k < 8) :
    Rereads (binary inner (levels k)) k e := by
  rw [levels_of_lt hk]
  exact h.finish (Nat.le_succ k) extend?_productive (extend?_end fun _ _ => tightness_of_operatorOf)

private theorem Rereads.descend {m : Nat} (hm : m ≤ 8)
    (h : Rereads (binary inner (levels m)) m e) (hk : k ≤ m) :
    Rereads (binary inner (levels k)) k e := by
  obtain ⟨d, rfl⟩ := Nat.exists_eq_add_of_le hk
  clear hk
  induction d generalizing k with
  | zero => exact h
  | succ d ih =>
    rw [show k + (d + 1) = k + 1 + d by omega] at h hm
    exact Grows.level ((ih hm h).grows _) (by omega)

private theorem Returns.of_level {m : Nat} (hm : 2 ≤ m ∧ m ≤ 8)
    (h : Rereads (binary inner (levels m)) m e)
    (hgrown : m < 8 → Grows (Reads (binary inner (levels (m + 1))))
      (extend? (operatorOf m) (fun _ => binary inner (levels (m + 1))) .binary) (m + 1) e)
    (htight : e.tightness = m ∨ e.tightness = 9 ∧ m = 8)
    (hsuffixed : 9 ≤ e.tightness → Grows (Starts inner) (suffix? inner) 10 e) :
        Returns inner e where
  suffixed := hsuffixed
  level _ _ hk := h.descend hm.2 (by omega)
  grown {k} _ _ hk := by
    by_cases hkm : k = m
    · subst hkm
      exact hgrown (by omega)
    · exact (h.descend hm.2 (by omega : k + 1 ≤ m)).grows _
  piped := (h.descend hm.2 hm.1).grows _

private theorem Returns.of_suffixed (htight : e.tightness = 9)
    (h : Grows (Starts inner) (suffix? inner) 10 e) :
    Returns inner e := by
  have hunary : Rereads (unary inner) 8 e := by
    intro s rest hs hrest
    obtain ⟨first, s₁, e', t, hfirst, hread, hrounds⟩ := h hs fun l _ => l.tightness_lt
    refine ⟨e', t, ?_, hread⟩
    unfold unary
    rw [reads_get_bind, unaryOp?_of_primary hfirst.1]
    refine reads_postfixed hfirst
      ((reads_repeated suffix?_productive).2 (hrounds (.done (suffix?_end ?_))))
    rw [State.current?_eq, hread.rest]
    exact fun l hl => Nat.lt_succ_of_lt (hrest l hl)
  exact .of_level (m := 8) (by decide) hunary (by simp) (.inr ⟨htight, rfl⟩) fun _ => h

private theorem Returns.unary {op : UnaryOp} {span : Span} (hplain : e.Plain room)
    (h : Rereads (inner .operand) 8 e) :
    Returns inner (.unary span op e) := by
  refine .of_level (m := 8) (by decide) ?_ (by simp) (.inl rfl) (by simp [Expr.tightness])
  intro s rest hs hrest
  rw [Expr.lexemes_unary hplain, List.cons_append] at hs
  obtain ⟨hadvance, hlog⟩ := State.lexemes_advance hs
  obtain ⟨e', t, he', hread⟩ := h hadvance hrest
  obtain ⟨l, ls, hl, hstarts, hsigned⟩ := hplain.leads
  rw [hl, List.cons_append] at hs hadvance
  have hop : unaryOp? s = some op := by
    unfold unaryOp?
    rw [State.current?_of_lexemes hs]
    cases op with
    | not => rfl
    | neg => simp [UnaryOp.lexeme, State.atNegativeNumber_eq_false hs hsigned]
  have hstart : s.advance.atExpressionStart = true := by
    simpa [State.atExpressionStart, State.current?_of_lexemes hadvance] using hstarts
  refine ⟨.unary (s.currentSpan.merge e'.span) op e', t, ?_, ?_, hread.rest, hread.log.trans hlog⟩
  · change Reads (Grammar.unary inner) s _ t
    unfold Grammar.unary
    rw [reads_get_bind, hop]
    simp only [reads_bind, reads_advance, reads_operand, reads_pure, exists_const, exists_eq_left]
    exact ⟨_, ⟨hstart, rfl⟩, e', t, he', rfl, rfl⟩
  · have hbare := hread.bare
    simp only [Expr.bare, Expr.respan] at hbare ⊢
    rw [hbare]

private theorem Returns.binary {op : BinaryOp} {span : Span} {left right : Expr}
    (hplain : right.Plain room) (hleft : Returns inner left) (hright : Returns inner right)
    (hladder : (Expr.binary span op left right).OnLadder) :
    Returns inner (.binary span op left right) := by
  have hlow := op.precedence_pos
  have hhigh := op.precedence_lt
  obtain ⟨⟨hpipe, hop⟩, hpipe', hop'⟩ := hladder
  have hgrown :=
    (hleft.grown hlow hhigh (Expr.le_tightness (Nat.le_of_lt hhigh) hpipe hop)).extend (s := span)
    (hright.level (by omega) hhigh (Expr.le_tightness hhigh hpipe' hop')) hplain
      (operatorOf_precedence_lexeme op)
    op.tightness_lexeme Expr.lexemes_binary (by
      intro s left' right' hl hr
      simp only [Expr.bare, Expr.respan] at hl hr ⊢
      rw [hl, hr])
  exact .of_level ⟨hlow, Nat.le_of_lt hhigh⟩ (hgrown.level hhigh) (fun _ => hgrown)
      (.inl rfl) fun h => by
    simp only [Expr.tightness] at h
    omega

omit [∀ e, Advances (inner e)] in
private theorem Returns.pipeForm {span : Span} {left right : Expr} (hplain : right.Plain room)
    (hleft : Returns inner left) (hright : Returns inner right)
    (hladder : (Expr.pipe span left right).OnLadder) :
    Returns inner (.pipe span left right) where
  suffixed h := absurd h (by simp [Expr.tightness])
  level hlow _ h := absurd h (by simp only [Expr.tightness]; omega)
  grown hlow _ h := absurd h (by simp only [Expr.tightness]; omega)
  piped := by
    have hright := hright.level (Nat.le_refl 2) (by decide)
      (Expr.le_tightness (by decide) hladder fun op _ => op.precedence_pos)
    have hpipe : pipeOf (.symbol .pipe) = some () := rfl
    refine hleft.piped.extend hright hplain hpipe rfl Expr.lexemes_pipe ?_
    intro s left' right' hl hr
    simp only [Expr.bare, Expr.respan] at hl hr ⊢
    rw [hl, hr]

omit [∀ e, Advances (inner e)] in
private theorem grows_name {n : Name} (h : n.Plain) :
    Grows (Starts inner) (suffix? inner) 10 (.name n) := by
  intro s rest hs _
  rw [Expr.lexemes_name] at hs
  obtain ⟨hname, hrest, hlog⟩ := reads_plainName .expression h hs
  have hnamed : (Expr.name ⟨n.text, s.currentSpan⟩).bare = (Expr.name n).bare := by
    rw [bare_name, bare_name]
  refine ⟨.name ⟨n.text, s.currentSpan⟩, _, _, _, ⟨?_, rfl⟩, ⟨hnamed, hrest, hlog⟩, id⟩
  unfold primary
  rw [reads_get_bind, State.current?_of_lexemes hs, Name.lexeme, h.identifier]
  simp only [reads_bind, reads_pure]
  exact ⟨_, _, hname, rfl, rfl⟩

omit [∀ e, Advances (inner e)] in
private theorem grows_paren {span : Span} (h : Rereads (inner .expression) 1 e) :
    Grows (Starts inner) (suffix? inner) 10 (.paren span e) := by
  intro s rest hs _
  rw [Expr.lexemes_paren, List.cons_append, List.append_assoc] at hs
  obtain ⟨hopen, hopenlog⟩ := State.lexemes_advance hs
  obtain ⟨e', t, he', hread⟩ := h hopen (loose_cons (by decide))
  obtain ⟨hclose, hcloselog⟩ := State.lexemes_advance hread.rest
  have hbare :
      (Expr.paren (s.currentSpan.merge t.currentSpan) e').bare = (Expr.paren span e).bare := by
    have hbare := hread.bare
    simp only [Expr.bare, Expr.respan] at hbare ⊢
    rw [hbare]
  refine ⟨_, _, _, _, ⟨?_, rfl⟩, ⟨hbare, hclose, by rw [hcloselog, hread.log, hopenlog]⟩, id⟩
  unfold primary
  rw [reads_get_bind, State.current?_of_lexemes hs]
  simp only [parenthesized, reads_bind, reads_expect, reads_close, reads_pure]
  exact ⟨_, _, ⟨State.sees_of_lexemes hs, rfl, rfl⟩, e', t, he', _, _,
    ⟨State.sees_of_lexemes hread.rest, rfl, rfl⟩, rfl,
    rfl⟩

end Levels

theorem Returns.expression {limit : Nat} (h : Returns (enter limit room) e) :
    Rereads (enter limit (room + 1) .expression) 1 e := h.pipe

open Node in
/-- Plain expressions on the ladder, with room for them, are read by all readers not above them. -/
theorem Returns.of_plain (limit : Nat) (hplain : e.Plain room) (h : (Node.expr e).Laddered) :
    Returns (enter limit room) e := by
  induction hplain with
  | name hn => exact .of_suffixed rfl (grows_name hn)
  | paren _ ih =>
    exact .of_suffixed rfl
      (grows_paren (ih (h.children _ (by simp [children, childrenOfExpr]))).expression)
  | pipe _ hright ihl ihr =>
    exact .pipeForm hright (ihl (h.children _ (by simp [children, childrenOfExpr])))
      (ihr (h.children _ (by simp [children, childrenOfExpr]))) h.here
  | binary _ hright ihl ihr =>
    exact .binary hright (ihl (h.children _ (by simp [children, childrenOfExpr])))
      (ihr (h.children _ (by simp [children, childrenOfExpr]))) h.here
  | unary he ih =>
    have ih := ih (h.children _ (by simp [children, childrenOfExpr]))
    obtain ⟨hpipe, hop⟩ := h.here
    exact .unary he
      (ih.level (by decide) (by decide) (Expr.le_tightness (by decide) hpipe (by simp [hop])))
  | member _ hfield ih =>
    have ih := ih (h.children _ (by simp [children, childrenOfExpr]))
    exact .of_suffixed rfl ((ih.suffixed (Expr.takesSuffix_iff.1 h.here)).member hfield)
  | index _ _ ih ihi =>
    have ih := ih (h.children _ (by simp [children, childrenOfExpr]))
    have ihi := ihi (h.children _ (by simp [children, childrenOfExpr]))
    exact .of_suffixed rfl ((ih.suffixed (Expr.takesSuffix_iff.1 h.here)).index ihi.expression)
  | @call room _ _ args _ hroom hargs ih ihargs =>
    have ih := ih (h.children _ (by simp [children, childrenOfExpr]))
    have hread : ∀ a ∈ args, Rereads (enter limit room .expression) 1 a := by
      intro a ha
      have hread := (ihargs a ha (h.children _ (by simp [children, childrenOfExpr, ha]))).expression
      rwa [Nat.sub_add_cancel (hroom (List.ne_nil_of_mem ha))] at hread
    exact .of_suffixed rfl
      ((ih.suffixed (Expr.takesSuffix_iff.1 h.here)).call (fun a ha => ⟨_, hargs a ha⟩) hread)

end Grammar

end ApiScript
