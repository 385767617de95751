import ApiScript.Proofs.Ladder.Chain
import ApiScript.Proofs.Reprint.Primary

set_option autoImplicit false
set_option relaxedAutoImplicit false
set_option synthInstance.maxSize 2000

/-!
Expressions are read again from what they are written as: what is put behind an expression in rounds
is written behind it, and read again in as many rounds.
-/

namespace ApiScript.Grammar

open Piece Placed
open Node (Good)

variable {inner : Inner} {s t u : State} {e : Expr} {code : Bool} {indent n : Nat} {qs : List Piece}

/-- What the reader has read without a report is written as pieces that it reads again, in front of
what is like what was behind. -/
def Reprints (code : Bool) (p : Parser Expr) : Prop :=
  ∀ {s t : State} {e : Expr} {qs : List Piece} (indent n : Nat), Hears p s e t →
    Good code (.expr e) → Edge true t qs →
    Gap e qs → Echo code p e n (e.layout indent ++ qs) n qs ∧ Likes s (e.layout indent ++ qs)

section Rounds

variable {step : Expr → Parser (Option Expr)}

/-- A step that puts something behind an expression: that is written behind it, so that the
expression is read again in front, and is read again itself. Where nothing is put there, nothing is
read. -/
private structure Appends (code : Bool) (indent n : Nat) (step : Expr → Parser (Option Expr)) :
    Prop where
  productive : Productive step
  more {a b : Expr} {s t : State} {ps : List Piece} : Hears (step a) s (some b) t →
    Good code (.expr b) →
    Edge true t ps →
    Gap b ps → Good code (.expr a) ∧ ∃ ps', b.layout indent ++ ps = a.layout indent ++ ps' ∧
    Edge true s ps' ∧ Gap a ps' ∧ ∀ a', Same a a' → Echo code (step a') (some b) n ps' n ps
  done {a : Expr} {s t : State} {ps : List Piece} : Reads (step a) s none t → Edge true t ps →
    t = s ∧ ∀ (a' : Expr) (u : State), u.Shows ps → Reads (step a') u none u

variable [∀ a, Advances (step a)]

private theorem Rounds.reaches {a c : Expr} (h : Rounds step a s c t) : Reaches s t := by
  induction h with
  | done h => exact Advances.reads h
  | more h _ ih => exact (Advances.reads h).trans ih

private theorem echo_rounds (hall : Appends code indent n step) {a c : Expr}
    (h : Rounds step a s c t) (hs : s.Spelled) (hlog : t.log = s.log) (hgood : Good code (.expr c))
    (hedge : Edge true t qs) (hgap : Gap c qs) :
    Good code (.expr a) ∧ ∃ ps, c.layout indent ++ qs = a.layout indent ++ ps ∧ Edge true s ps ∧
    Gap a ps ∧ ∀ a', Same a a' → Echo code (repeated step a') c n ps n qs := by
  suffices hrounds : Good code (.expr a) ∧ ∃ ps, c.layout indent ++ qs = a.layout indent ++ ps ∧
      Edge true s ps ∧ Gap a ps ∧ (Written code n qs → Written code n ps) ∧
        ∀ a' u, Same a a' → u.Shows ps →
          ∃ c' v, Rounds step a' u c' v ∧ Same c c' ∧ v.Shows qs ∧ v.log = u.log by
    obtain ⟨hgood, ps, hlayout, hedge, hgap, hwritten, hanswers⟩ := hrounds
    refine ⟨hgood, ps, hlayout, hedge, hgap, fun a' ha' => ⟨hwritten, fun {u} hu => ?_⟩⟩
    obtain ⟨c', v, hc', hrest⟩ := hanswers a' u ha' hu
    exact ⟨c', v, (reads_repeated hall.productive).2 hc', hrest⟩
  induction h with
  | @done a s t hnone =>
    obtain ⟨rfl, hend⟩ := hall.done hnone hedge
    refine ⟨hgood, qs, rfl, hedge, hgap, id, fun a' u ha' hu => ⟨a', u, .done ?_, ha', hu, rfl⟩⟩
    exact hend a' u hu
  | @more a b c s s₁ t hsome rest ih =>
    obtain ⟨hear, hs₁, hlog₁⟩ := Hears.of_reads hsome rest.reaches hs hlog
    obtain ⟨hgood, ps, hlayout, hedge, hgap, hwritten, hanswers⟩ := ih hs₁ hlog₁ hgood hedge hgap
    obtain ⟨hgood, ps', hlayout', hedge, hgap, hecho⟩ := hall.more hear hgood hedge hgap
    refine ⟨hgood, ps', hlayout.trans hlayout', hedge, hgap, fun hqs =>
      (hecho a rfl).written (hwritten hqs), fun a' u ha' hu => ?_⟩
    obtain ⟨b', v, hb', hsame, hv, hlogv⟩ := (hecho a' ha').answers hu
    cases b' with
    | none => cases hsame
    | some b' =>
      obtain ⟨c', w, hc', hsame', hw, hlogw⟩ := hanswers b' v (Option.some.inj hsame) hv
      exact ⟨c', w, .more hb' hc', hsame', hw, hlogw.trans hlogv⟩

private theorem Reprints.repeated {first : Parser Expr} [Advances first]
    (hfirst : Reprints code first) (hall : ∀ indent n, Appends code indent n step) :
    Reprints code (first >>= repeated step) := by
  intro s t e qs indent n h hgood hedge hgap
  obtain ⟨a, s₁, ha, hrest⟩ := hears_bind.1 h
  obtain ⟨hgood, ps, hlayout, hedge, hgap, hecho⟩ := echo_rounds (hall indent n)
    ((reads_repeated (hall indent n).productive).1 hrest.reads) hrest.spelled hrest.quiet hgood
      hedge hgap
  obtain ⟨hecho', hlikes⟩ := hfirst indent n ha hgood hedge hgap
  rw [hlayout]
  exact ⟨hecho'.bind hecho, hlikes⟩

end Rounds

section Suffixes

private theorem edge_suffix {x : Symbol} {ps : List Piece} (hs : s.current? = some (.symbol x))
    (hx : x ∈ [.leftBracket, .leftParen]) : Edge true s (symbol x :: ps) := by
  simp only [List.mem_cons, List.not_mem_nil, or_false] at hx
  have hrole : s.current?.map Lexeme.role = some (Lexeme.symbol x).role := by
    rw [hs, Option.map_some]
  rcases hx with rfl | rfl <;>
  exact ⟨.lexeme (likes_lexeme hrole nofun nofun) nofun nofun nofun,
    detached_render rfl (by decide)⟩

private theorem edge_member {x : Name} {ps : List Piece} (hs : s.current? = some (.symbol .dot))
    (hx : x.IsIdentifier) :
    Edge true s (symbol .dot :: Piece.name x :: ps) := by
  refine ⟨.lexeme (likes_lexeme (by rw [hs, Option.map_some]) nofun nofun) nofun nofun nofun, ?_⟩
  obtain ⟨c, cs, htext, hstart⟩ := hx.render ps
  rw [render_cons, htext]
  rintro d ⟨⟩
  refine .inr ⟨rfl, ?_⟩
  rintro d ⟨⟩
  exact Lexeme.not_isDigit_of_isWordStart hstart

private theorem gap_symbol {x : Symbol} {ps : List Piece} (h : e.tail.takes x = false) :
    Gap e (symbol x :: ps) := by
  rintro y hy
  cases hy
  exact h

private theorem takes_leftBracket (e : Expr) : e.takes .leftBracket = false := by
  unfold Expr.takes
  split <;> first | rfl | contradiction

private theorem reads_suffix?_none (h : s.atSuffix = false) : Reads (suffix? inner e) s none s := by
  simp only [State.atSuffix, State.sees, Bool.or_eq_false_iff, beq_eq_false_iff_ne] at h
  unfold suffix?
  rw [reads_get_bind]
  split
  case h_4 => exact reads_pure.2 ⟨rfl, rfl⟩
  all_goals
    rename_i hcurrent
    simp [hcurrent] at h

variable [∀ e, Advances (inner e)]

private theorem Echoes.appends_suffix (hi : Echoes inner) (indent n : Nat) :
    Appends code indent n (suffix? inner) where
  productive := suffix?_productive
  more {a b s t ps} h hgood hedge hgap := by
    obtain ⟨hread, hs, hlog⟩ := h
    unfold suffix? at hread
    rw [reads_get_bind] at hread
    split at hread
    · rename_i hcurrent
      simp only [reads_bind, reads_advance, reads_pure, exists_const, exists_eq_left,
        Option.some.injEq] at hread
      obtain ⟨x, s₁, hx, rfl, rfl⟩ := hread
      have hx : x.IsIdentifier := Hears.isIdentifier ⟨hx, hs.advance, hlog.trans s.log_advance.symm⟩
      refine ⟨hgood.children _ List.mem_cons_self, symbol .dot :: Piece.name x :: ps, ?_,
        edge_member hcurrent hx, gap_symbol hgood.here.reprintable, fun a' ha' =>
        .get_bind fun u hu => ?_⟩
      · rw [Expr.layout, List.append_assoc]
        rfl
      · rw [hu.current? (by simp)]
        refine (Echo.advance (l := .symbol .dot) (by simp) (.symbol_name (by decide) hx)).bind
            fun _ _ =>
          (Echo.name hx hedge.detached.bounds).bind fun x' hx' => .pure ?_
        simp only [Same, respan, Expr.respan, Option.map_some] at ha' hx' ⊢
        rw [ha', hx']
    · rename_i hcurrent
      simp only [reads_bind, reads_advance, reads_close, reads_pure, exists_const, exists_eq_left,
        Option.some.injEq, and_assoc, exists_and_left] at hread
      obtain ⟨i, s₁, hread, hclose, rfl, rfl⟩ := hread
      have hear : Hears (inner .expression) s.advance i s₁ :=
        ⟨hread, hs.advance, (s₁.log_advance.symm.trans hlog).trans s.log_advance.symm⟩
      have hclosed (qs : List Piece) : Closed s₁ (symbol .rightBracket :: qs) :=
        closed_of_sees (by decide) hclose
      have hclosing (opener : Span) : Echo code (close .bracket false opener) .nowhere n
        (symbol .rightBracket :: ps) n ps :=
        .close (by simp) (.fixed (by decide) rfl)
      refine ⟨hgood.children _ List.mem_cons_self,
        symbol .leftBracket :: (i.layout indent ++ symbol .rightBracket :: ps), ?_,
        edge_suffix hcurrent (by decide), gap_symbol (takes_leftBracket _), fun a' ha' =>
        .get_bind fun u hu => ?_⟩
      · rw [Expr.layout]
        simp only [List.append_assoc, List.cons_append, List.nil_append]
      · rw [hu.current? (by simp)]
        refine (Echo.advance (l := .symbol .leftBracket) (by simp) (.fixed (by decide) rfl)).bind
            fun _ _ =>
          (hi.expression indent n hear
            (hgood.children _ (List.mem_cons_of_mem _ List.mem_cons_self)) (hclosed _).edge
            ((hclosed _).gap _)).1.bind fun i' hi' => (hclosing _).bind fun closer _ => .pure ?_
        simp only [Same, respan, Expr.respan, Option.map_some] at ha' hi' ⊢
        rw [ha', hi']
    · rename_i hcurrent
      simp only [reads_bind, reads_pure, Option.some.injEq] at hread
      obtain ⟨r, s₁, hr, rfl, rfl⟩ := hread
      have hecho := hi.arguments indent n ps ⟨hr, hs, hlog⟩ fun e he =>
        hgood.children _ (List.mem_cons_of_mem _ (List.mem_map_of_mem he))
      refine ⟨hgood.children _ List.mem_cons_self,
        symbol .leftParen :: (Expr.layoutAll indent r.1 ++ symbol .rightParen :: ps), ?_,
        edge_suffix hcurrent (by decide), gap_symbol hgood.here.reprintable, fun a' ha' =>
        .get_bind fun u hu => ?_⟩
      · rw [Expr.layout]
        simp only [List.append_assoc, List.cons_append, List.nil_append]
      · rw [hu.current? (by simp)]
        refine hecho.bind fun r' hr' => .pure ?_
        have hargs : Same r.1 r'.1 := congrArg Prod.fst hr'
        simp only [Same, respan, Expr.respan, Expr.respanAll_eq_map, Option.map_some] at ha' hargs ⊢
        rw [ha', hargs]
    · cases (reads_pure.1 hread).1
  done {a s t ps} h hedge := by
    obtain rfl := suffix?_none h
    refine ⟨rfl, fun a' u hu => reads_suffix?_none ?_⟩
    have hlike := hedge.likes u hu
    rw [State.atSuffix, hlike.sees rfl, hlike.sees rfl, hlike.sees rfl]
    exact atSuffix_of_suffix?_none h

private theorem isEmission_of_same {e e' : Expr} (h : Same e e') :
    e'.isEmission = e.isEmission := by
  have hrespan (e : Expr) : (respan (fun _ => .nowhere) e).isEmission = e.isEmission := by
    cases e <;> simp only [respan, Expr.respan_emit, Expr.respan, Expr.isEmission]
  rw [← hrespan e, h, hrespan]

variable [Consumes (inner .expression)]

private theorem Echoes.postfixed (hi : Echoes inner) : Reprints code (Grammar.postfixed inner) := by
  intro s t e qs indent n h hgood hedge hgap
  obtain ⟨hread, hs, hlog⟩ := h
  obtain ⟨first, s₁, hfirst, hrest⟩ := reads_bind.1 hread
  cases hemission : first.isEmission with
  | true =>
    obtain ⟨rfl, rfl⟩ : e = first ∧ t = s₁ := by
      cases first with
      | emit => exact reads_pure.1 hrest
      | _ => cases hemission
    obtain ⟨hecho, hlikes⟩ := hi.primary indent n ⟨hfirst, hs, hlog⟩ hgood hedge hgap
    refine ⟨hecho.bind fun e' he' => ?_, hlikes⟩
    rw [← isEmission_of_same he'] at hemission
    cases e' with
    | emit => exact .pure he'
    | _ => cases hemission
  | false =>
    have hrest : Reads (repeated (suffix? inner) first) s₁ e t := by
      cases first with
      | emit => cases hemission
      | _ => exact hrest
    obtain ⟨hear, hs₁, hlog₁⟩ := Hears.of_reads hfirst (Advances.reads hrest) hs hlog
    obtain ⟨hgood, ps, hlayout, hedge, hgap, hecho⟩ := echo_rounds (hi.appends_suffix indent n)
      ((reads_repeated suffix?_productive).1 hrest) hs₁ hlog₁ hgood hedge hgap
    obtain ⟨hecho', hlikes⟩ := hi.primary indent n hear hgood hedge hgap
    rw [hlayout]
    refine ⟨hecho'.bind fun first' hfirst' => ?_, hlikes⟩
    rw [← isEmission_of_same hfirst'] at hemission
    have hround := hecho first' hfirst'
    cases first' with
    | emit => cases hemission
    | _ => exact hround

end Suffixes

section Operands

private theorem begins_of_startsExpression {l : Lexeme} (hl : State.startsExpression l = true)
    (hspelled : l.WellSpelled) :
    Begins l.spelling.toList := by
  cases l with
  | number | string => exact hspelled.begins rfl
  | identifier text => exact hspelled.word.begins
  | keyword k => cases k <;> exact ⟨_, _, rfl, by decide⟩
  | symbol x => cases x <;> first | exact ⟨_, _, rfl, by decide⟩ | cases hl
  | comment | invalid => cases hl

private theorem begins_of_written {l : Lexeme} {ps : List Piece}
    (h : Written code n (lexeme l :: ps))
    (hstart : ∀ u : State, u.Shows (lexeme l :: ps) → u.atExpressionStart = true) :
    Begins (render (lexeme l :: ps)).toList := by
  rw [render_cons]
  refine Begins.append ?_ _
  by_cases hbar : l = .symbol .bar
  · subst hbar
    exact ⟨_, _, rfl, by decide⟩
  · obtain ⟨u, hu⟩ := Echo.exists_shows (lexeme l :: ps)
    have hstarts := hstart u hu
    rw [State.atExpressionStart, hu.current? hbar] at hstarts
    have hclear := h.clear
    rw [joined_cons fun heq => hbar (Piece.lexeme.inj heq)] at hclear
    exact begins_of_startsExpression hstarts hclear.1.1

variable [∀ e, Advances (inner e)] [Consumes (inner .expression)]

theorem Echoes.unary (hi : Echoes inner) : Reprints code (Grammar.unary inner) := by
  intro s t e qs indent n h hgood hedge hgap
  unfold Grammar.unary at h ⊢
  rw [hears_get_bind] at h
  split at h
  · rename_i op hop
    simp only [hears_bind, hears_advance, hears_operand, hears_pure, and_assoc, exists_and_left,
      exists_eq_left, exists_const] at h
    obtain ⟨-, -, hstart, e, s₁, he, -, rfl, rfl⟩ := h
    have hchild : Good code (.expr e) := hgood.children _ List.mem_cons_self
    obtain ⟨hecho, hlikes⟩ := hi.operand indent n he hchild hedge hgap
    have hs := unaryOp?_current? hop
    have hstarts (u : State) (hu : u.Shows (e.layout indent ++ qs)) :
        u.atExpressionStart = true := by
      rw [(hlikes u hu).atExpressionStart, hstart]
    have hbar : op.lexeme ≠ .symbol .bar := by cases op <;> decide
    have hall {ps : List Piece} (hps : Echo code (inner .operand) e n ps n qs)
        (hat : ∀ u : State, u.Shows ps → u.atExpressionStart = true)
        (hw : Written code n ps → Written code n (lexeme op.lexeme :: ps))
        (hread : ∀ u : State, u.Shows (lexeme op.lexeme :: ps) → unaryOp? u = some op)
        (hlayout : (Expr.unary (s.currentSpan.merge e.span) op e).layout indent ++ qs =
          lexeme op.lexeme :: ps) :
        Echo code (Grammar.unary inner) (.unary (s.currentSpan.merge e.span) op e) n
          ((Expr.unary (s.currentSpan.merge e.span) op e).layout indent ++ qs) n qs ∧
          Likes s ((Expr.unary (s.currentSpan.merge e.span) op e).layout indent ++ qs) := by
      rw [hlayout]
      refine ⟨.get_bind fun u hu =>
        ?_, likes_lexeme (by rw [hs, Option.map_some]) hbar (by cases op <;> decide)⟩
      rw [hread u hu]
      refine (Echo.advance hbar hw).bind fun _ _ => (Echo.operand hat).bind fun _ _ =>
        hps.bind fun e' he' => .pure ?_
      simp only [Same, respan, Expr.respan] at he' ⊢
      rw [he']
    have hagainst (hw : Written code n (e.layout indent ++ qs)) :
        Written code n (lexeme op.lexeme :: (e.layout indent ++ qs)) := by
      obtain ⟨l, ps, hps, -⟩ := e.layout_head indent qs
      rw [hps] at hw hstarts ⊢
      have hbegins := begins_of_written hw hstarts
      cases op <;> exact hw.symbol (by decide) (hbegins.stops (by simp [Symbol.growsBy]))
    cases op with
    | not =>
      refine hall hecho hstarts hagainst (fun u hu => ?_) (by rw [Expr.layout.eq_def]; rfl)
      unfold unaryOp?
      rw [hu.current? hbar]
      rfl
    | neg =>
      -- a minus sign is read as an operator where it touches no number
      have hread {ps : List Piece} (hps : ∀ l, ps.head? = some (lexeme l) → l.isSignable = false)
        (u : State)
          (hu : u.Shows (symbol .minus :: ps)) : unaryOp? u = some .neg := by
        have hsign : u.atNegativeNumber = false := by
          rw [Bool.eq_false_iff]
          intro hsign
          obtain ⟨l, hhead, hsignable⟩ := hu.atNegativeNumber hsign ps rfl
          rw [hps l hhead] at hsignable
          cases hsignable
        unfold unaryOp?
        rw [hu.current? (by simp)]
        exact if_neg (by rw [hsign]; decide)
      cases hsignable : e.isSignable with
      | true =>
        refine hall hecho.space (fun u hu => hstarts u hu.space)
          (.symbol_detached (by decide) detached_space)
          (hread (by simp)) ?_
        rw [Expr.layout_neg_of_isSignable _ _ hsignable]
        rfl
      | false =>
        refine hall hecho hstarts hagainst (hread fun l hhead => ?_) ?_
        · have hsign : e.lead.takesSign = false :=
            hgood.here.reprintable.resolve_left (by rw [hsignable]; decide)
          obtain ⟨l', ps, hps, hopens⟩ := e.layout_head indent qs
          rw [hps] at hhead
          obtain rfl : l' = l := Piece.lexeme.inj (Option.some.inj hhead)
          rw [Bool.eq_false_iff]
          intro hl
          rw [hopens.signed hl] at hsign
          cases hsign
        · rw [Expr.layout_unary_of_not _ _ _ hsignable]
          rfl
  · rename_i hnone
    obtain ⟨hecho, hlikes⟩ := hi.postfixed indent n h hgood hedge hgap
    refine ⟨.get_bind fun u hu => ?_, hlikes⟩
    obtain ⟨e', v, he', -⟩ := hecho.answers hu
    obtain ⟨first, w, hfirst, -⟩ := reads_bind.1 he'
    rw [unaryOp?_of_primary hfirst]
    exact hecho

end Operands

section Operators

variable {Op : Type} {operator? : Lexeme → Option Op} {right : Op → Parser Expr}
  {combine : Span → Op → Expr → Expr → Expr}

private structure Joins (operator? : Lexeme → Option Op)
    (combine : Span → Op → Expr → Expr → Expr) : Prop where
  link {l : Lexeme} {op : Op} : operator? l = some op → ∃ link : Link, l = link.lexeme
  layout {l : Lexeme} {op : Op} (span : Span) (left e : Expr) (indent : Nat) :
    operator? l = some op →
    (combine span op left e).layout indent = left.layout indent ++ [space, lexeme l, space] ++
      e.layout indent
  children (span : Span) (op : Op) (left e : Expr) :
    (Node.expr (combine span op left e)).children = [.expr left, .expr e]
  tail (span : Span) (op : Op) (left e : Expr) : (combine span op left e).tail = e.tail
  same {left left' e e' : Expr} (span span' : Span) (op : Op) : Same left left' → Same e e' →
    Same (combine span op left e) (combine span' op left' e')

private theorem joins_binary (minimum : Nat) :
    Joins (operatorFrom minimum) fun span op => .binary span op.1 where
  link {l op} h := ⟨.binary op.1, (operatorFrom_lexeme h).symm⟩
  layout span left e indent h := by rw [Expr.layout, operatorFrom_lexeme h]
  children _ _ _ _ := rfl
  tail _ _ _ _ := rfl
  same span span' op hleft he := by
    simp only [Same, respan, Expr.respan] at hleft he ⊢
    rw [hleft, he]

private theorem joins_pipe : Joins pipeOf fun span _ => .pipe span where
  link h := ⟨.pipe, pipeOf_eq_some h⟩
  layout span left e indent h := by
    rw [Expr.layout, pipeOf_eq_some h]
    rfl
  children _ _ _ _ := rfl
  tail _ _ _ _ := rfl
  same span span' op hleft he := by
    simp only [Same, respan, Expr.respan] at hleft he ⊢
    rw [hleft, he]

private theorem isDistinct_link (link : Link) :
    link.lexeme.isDistinct = true ∨ link.lexeme = .symbol .or := by
  cases link with
  | pipe => exact .inl rfl
  | binary op => cases op <;> first | exact .inl rfl | exact .inr rfl

private theorem link_ne (link : Link) :
    link.lexeme ∉ [.symbol .bar, .symbol .dot, .symbol .leftBrace, .symbol .rightBrace] := by
  cases link with
  | pipe => decide
  | binary op => cases op <;> decide

private theorem written_link (link : Link) (h : Written code n (space :: qs)) :
    Written code n (lexeme link.lexeme :: space :: qs) := by
  have hspelled : link.lexeme.WellSpelled ∧ link.lexeme.isTrivia = false ∧
      ¬link.lexeme.Misread := by
    cases link with
    | pipe => exact ⟨trivial, rfl, id⟩
    | binary op => cases op <;> exact ⟨trivial, rfl, id⟩
  exact .detached hspelled.1 hspelled.2.1 (link_ne link) (fun _ => hspelled.2.2) detached_space h

private theorem edge_link {ps : List Piece} (link : Link) (hs : s.current? = some link.lexeme) :
    Edge true s (space :: lexeme link.lexeme :: space :: ps) := by
  have hne := link_ne link
  simp only [List.mem_cons, List.not_mem_nil, or_false, not_or] at hne
  refine Ahead.edge_space
    (.lexeme (likes_lexeme (by rw [hs, Option.map_some]) hne.1 hne.2.2.1) hne.1
    (fun hor => ?_) fun _ => nofun)
  rw [State.sees, hs, hor, beq_self_eq_true]

private theorem Ahead.no_operator (hjoins : Joins operator? combine) (h : Ahead true t qs)
    (hnone : ∀ l, t.current? = some l → operator? l = none) (hu : u.Shows qs) :
    ∀ l, u.current? = some l → operator? l = none := by
  intro l hl
  refine Option.eq_none_iff_forall_ne_some.2 fun op hop => ?_
  obtain ⟨link, rfl⟩ := hjoins.link hop
  have ht : t.current? = some link.lexeme := by
    rcases isDistinct_link link with hdistinct | hor
    · exact (h.likes u hu).current?_back hl hdistinct
    · rw [hor] at hl ⊢
      exact State.current?_of_sees (h.bars rfl u hu (by rw [State.sees, hl, beq_self_eq_true]))
  rw [hnone _ ht] at hop
  cases hop

private theorem appends_extend [∀ op, Advances (right op)] (hjoins : Joins operator? combine)
    (hright : ∀ op, Reprints code (right op))
    (indent n : Nat) : Appends code indent n (extend? operator? right combine) where
  productive := extend?_productive
  more {a b s t ps} h hgood hedge hgap := by
    obtain ⟨hread, hs, hlog⟩ := h
    obtain ⟨l, op, e, hl, hop, hstart, he, rfl⟩ := extend?_some hread
    have hgood' := fun c => hgood.children c
    rw [hjoins.children] at hgood'
    have hgap' : Gap e ps := by
      unfold Gap at hgap
      rwa [hjoins.tail] at hgap
    obtain ⟨hecho, hlikes⟩ := hright op indent n ⟨he, hs.advance, hlog.trans s.log_advance.symm⟩
      (hgood' _ (List.mem_cons_of_mem _ List.mem_cons_self)) hedge hgap'
    obtain ⟨link, rfl⟩ := hjoins.link hop
    refine ⟨hgood' _ List.mem_cons_self, space :: lexeme link.lexeme :: space ::
      (e.layout indent ++ ps), ?_, edge_link link hl, gap_space a, fun a' ha' =>
      .space (.get_bind fun u hu => ?_)⟩
    · rw [hjoins.layout _ _ _ _ hop]
      simp only [List.append_assoc, List.cons_append, List.nil_append]
    · rw [hu.current? fun hbar => link_ne link (by simp [hbar])]
      simp only [hop]
      refine (Echo.advance (fun hbar => link_ne link (by simp [hbar]))
          (written_link link)).spaced.bind fun _ _ =>
        (Echo.operand fun v hv => ?_).bind fun _ _ => hecho.bind fun e' he' => .pure ?_
      · rw [(hlikes v hv).atExpressionStart, hstart]
      · exact congrArg some (hjoins.same _ _ op ha' he')
  done {a s t ps} h hedge := by
    obtain ⟨rfl, hnone⟩ := extend?_none h
    refine ⟨rfl, fun a' u hu => ?_⟩
    have hnone' := hedge.no_operator hjoins hnone hu
    unfold extend?
    rw [reads_get_bind]
    cases hcurrent : u.current? with
    | none => exact reads_pure.2 ⟨rfl, rfl⟩
    | some l =>
      simp only [hnone' l hcurrent]
      exact reads_pure.2 ⟨rfl, rfl⟩

variable [∀ e, Advances (inner e)] [Consumes (inner .expression)]

private theorem Echoes.climb (hi : Echoes inner) (minimum : Nat) :
    Reprints code (Grammar.climb inner minimum) := by
  induction minimum using climb.induct with
  | case1 minimum ih =>
    unfold Grammar.climb
    exact Reprints.repeated hi.unary (appends_extend (joins_binary minimum) ih)

/-- An expression is read again. -/
theorem Echoes.pipe (hi : Echoes inner) : Reprints code (Grammar.pipe inner) :=
  Reprints.repeated (hi.climb 0) (appends_extend joins_pipe fun _ => hi.climb 0)

end Operators

end ApiScript.Grammar
