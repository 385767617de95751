import ApiScript.Proofs.Ladder.Basic
import ApiScript.Proofs.Spelling.Program

set_option autoImplicit false
set_option relaxedAutoImplicit false

/-!
All trees that are read stand on the ladder: each level of the grammar answers with expressions that
bind at least as tightly as its operators, and puts only such expressions into larger ones.
-/

namespace ApiScript

def Node.OnLadder : Node → Prop
  | expr e => e.OnLadder
  | _ => True

abbrev Node.Laddered (n : Node) : Prop := n.Everywhere OnLadder

namespace Grammar

section Loops

variable {α : Type} {Q : α → Prop} {s t : State}

private theorem Continues.all {closer : Lexeme} {trailing : Bool} {item : Parser α} {as : List α}
    (hitem : ∀ {s a t}, Reads item s a t → Q a) (h : Continues closer trailing item s as t) :
    ∀ a ∈ as, Q a := by
  induction h with
  | bare | comma => simp
  | more _ _ ha _ ih => exact List.forall_mem_cons.2 ⟨hitem ha, ih⟩

private theorem delimited_all {delimiter : Delimiter} {trailing : Bool} {opener : Span}
    {item : Parser α} [Advances item] {r : List α × Span}
    (hitem : ∀ {s a t}, Reads item s a t → Q a)
    (h : Reads (delimited delimiter trailing opener item) s r t) : ∀ a ∈ r.1, Q a := by
  rcases reads_delimited.1 h with ⟨_, rfl, _⟩ | ⟨_, a, s₁, as, s₂, ha, has, _, rfl, _⟩
  · simp
  · exact List.forall_mem_cons.2 ⟨hitem ha, has.all hitem⟩

private theorem Fields.all {inner : Inner} {Q : Field → Prop} {more : Bool} {fs : List Field}
    (hfield : ∀ {s f t}, Reads (field inner) s f t → Q f) (h : Fields inner more s fs t) :
    ∀ f ∈ fs, Q f := by
  induction h with
  | done => simp
  | more _ hf _ _ ih => exact List.forall_mem_cons.2 ⟨hfield hf, ih⟩

private theorem Listed.all {surroundings : Surroundings} {atEnd : State → Bool}
    {statement : Parser α} {as : List α} (hstatement : ∀ {s a t}, Reads statement s a t → Q a)
    (h : Listed surroundings atEnd statement s as t) :
    ∀ a ∈ as, Q a := by
  induction h with
  | done => simp
  | read _ ha _ ih => exact List.forall_mem_cons.2 ⟨hstatement ha, ih⟩
  | resume _ _ _ ih => exact ih

end Loops

open Node

/-- What the readers of nodes read is on the ladder, and an operand is no binary expression and no
pipe. -/
private structure Climbs (inner : Inner) : Prop where
  expression {s t : State} {e : Expr} : Reads (inner .expression) s e t → (Node.expr e).Laddered
  operand {s t : State} {e : Expr} : Reads (inner .operand) s e t → (Node.expr e).Laddered ∧
    8 ≤ e.tightness
  alternative {s t : State} {c : Conditional} : Reads (inner .alternative) s c t →
    (Node.conditional c).Laddered
  block {s t : State} {b : Block} : Reads (inner .block) s b t → (Node.block b).Laddered
  pattern {s t : State} {p : Pattern} : Reads (inner .pattern) s p t → (Node.pattern p).Laddered

variable {inner : Inner} {s t u : State}

theorem laddered_name (n : Name) : (Node.name n).Laddered := .intro trivial (by simp [children])

private theorem Climbs.stringParts (hi : Climbs inner) {segments : List Quoted.Segment}
    {parts : List StringPart} (h : Reads (stringParts inner segments) s parts t) :
    ∀ e, .code e ∈ parts → (Node.expr e).Laddered := by
  induction segments generalizing s parts t with
  | nil =>
    obtain ⟨rfl, _⟩ := reads_pure.1 h
    simp
  | cons segment segments ih =>
    cases segment with
    | text text =>
      simp only [Grammar.stringParts, reads_bind, reads_pure] at h
      obtain ⟨rest, u, hu, rfl, _⟩ := h
      simpa using ih hu
    | code source offset =>
      simp only [Grammar.stringParts, reads_bind, reads_pure] at h
      obtain ⟨e, u, he, rest, v, hv, rfl, _⟩ := h
      obtain ⟨finish, _, hwhole, _⟩ := reads_embedded.1 he
      have he := hi.expression (reads_wholeExpression.1 hwhole).2.1
      simpa [he] using ih hv

private theorem Climbs.string (hi : Climbs inner) {expected : Expectation} {l : StringLiteral}
    (h : Reads (string inner expected) s l t) : (Node.string l).Laddered := by
  refine .intro trivial fun c hc => ?_
  rcases reads_string h with ⟨_, _, u, _, _, hu, _, _⟩ | ⟨_, text, _, _, rfl, _⟩
  · obtain ⟨part, hpart, hc⟩ := List.mem_filterMap.1 hc
    cases part with
    | text => cases hc
    | code e =>
      cases hc
      exact hi.stringParts hu e hpart
  · simp only [children] at hc
    split at hc <;> simp at hc

private theorem Climbs.literal (hi : Climbs inner) {l : Literal} (h : Reads (literal inner) s l t) :
    (Node.literal l).Laddered := by
  rcases reads_literal h with ⟨string, rfl, hstring⟩ | ⟨found, _, hl, _⟩
  · exact .intro trivial (by simpa [children] using hi.string hstring)
  · cases hl <;> exact .intro trivial (by simp [children])

private theorem Climbs.field (hi : Climbs inner) {f : Field} (h : Reads (field inner) s f t) :
    (Node.field f).Laddered := by
  simp only [Grammar.field, reads_bind, reads_get, reads_ite, reads_pure, and_assoc,
    exists_and_left, exists_eq_left] at h
  rcases h with ⟨_, n, _, _, _, _, _, value, _, hvalue, rfl, _⟩ | ⟨_, l, _, hl, _, _, _, value, _,
    hvalue, rfl, _⟩
  · exact .intro trivial (by simp [children, ofKey, laddered_name, hi.expression hvalue])
  · exact .intro trivial (by simp [children, ofKey, hi.string hl, hi.expression hvalue])

variable [∀ e, Advances (inner e)]

private theorem Climbs.object (hi : Climbs inner) {guessed : Bool} {o : Object}
    (h : Reads (object inner guessed) s o t) :
    (Node.object o).Laddered := by
  obtain ⟨u, _, hfields, _⟩ := reads_object.1 h
  exact .intro trivial (by simpa [children] using hfields.all hi.field)

private theorem Climbs.optionalObject (hi : Climbs inner) {o : Option Object}
    (h : Reads (optionalObject inner) s o t) :
    ∀ n ∈ ofOption Node.object o, n.Laddered := by
  simp only [Grammar.optionalObject, reads_bind, reads_get, reads_ite, reads_pure, and_assoc,
    exists_and_left, exists_eq_left] at h
  rcases h with ⟨_, o, _, ho, rfl, _⟩ | ⟨_, rfl, _⟩
  · simpa [ofOption] using hi.object ho
  · simp [ofOption]

omit [∀ e, Advances (inner e)] in
private theorem Climbs.statements {statement : Parser Item} [Advances statement]
    [Consumes statement] (hstatement : ∀ {s i t}, Reads statement s i t → (Node.item i).Laddered)
    {b : Block} (h : Reads (Grammar.block statement) s b t) : (Node.block b).Laddered := by
  simp only [Grammar.block, reads_bind, reads_pure] at h
  obtain ⟨_, _, _, items, _, hitems, _, _, _, rfl, _⟩ := h
  rw [reads_statements atBlockEnd_of_atEnd] at hitems
  exact .intro trivial (by simpa [children] using hitems.all hstatement)

section Patterns

omit [∀ e, Advances (inner e)]

private theorem Climbs.fieldPattern (hi : Climbs inner) {f : FieldPattern}
    (h : Reads (fieldPattern inner) s f t) :
    (Node.fieldPattern f).Laddered := by
  simp only [Grammar.fieldPattern, reads_bind, reads_accept, reads_ite, reads_pure] at h
  obtain ⟨key, _, _, _, _, _, ⟨_, p, _, hp, rfl, _⟩ | ⟨_, rfl, _⟩⟩ := h
  · exact .intro trivial (by simp [children, ofOption, laddered_name, hi.pattern hp])
  · exact .intro trivial (by simp [children, ofOption, laddered_name])

private theorem Climbs.literalPattern (hi : Climbs inner) {p : Pattern}
    (h : Reads (literalPattern inner) s p t) :
    (Node.pattern p).Laddered := by
  simp only [Grammar.literalPattern, reads_bind, reads_get, reads_ite, reads_pure, and_assoc,
    exists_and_left, exists_eq_left] at h
  obtain ⟨l, _, hl, ⟨_, _, _, _, ⟨_, stop, _, hstop, rfl, _⟩ | ⟨_, rfl, _⟩⟩ | ⟨_, rfl, _⟩⟩ := h
  · exact .intro trivial
      (by simp [children, childrenOfPattern, ofOption, hi.literal hl, hi.literal hstop])
  · exact .intro trivial (by simp [children, childrenOfPattern, ofOption, hi.literal hl])
  · exact .intro trivial (by simp [children, childrenOfPattern, hi.literal hl])

private theorem Climbs.openRangePattern (hi : Climbs inner) {p : Pattern}
    (h : Reads (openRangePattern inner) s p t) :
    (Node.pattern p).Laddered := by
  simp only [Grammar.openRangePattern, reads_bind, reads_get, reads_ite, reads_pure, reads_throw,
    and_assoc, exists_and_left, exists_eq_left, and_false, or_false] at h
  obtain ⟨_, _, _, _, stop, _, hstop, rfl, _⟩ := h
  exact .intro trivial (by simp [children, childrenOfPattern, ofOption, hi.literal hstop])

variable [∀ e, Advances (inner e)]

private theorem Climbs.patternForm (hi : Climbs inner) {p : Pattern}
    (h : Reads (Grammar.pattern inner) s p t) :
    (Node.pattern p).Laddered := by
  unfold Grammar.pattern at h
  rw [reads_get_bind] at h
  dsimp only at h
  split at h
  · simp only [reads_bind, reads_advance, reads_pure, exists_const, exists_eq_left] at h
    obtain ⟨rfl, _⟩ := h
    split <;> exact .intro trivial (by simp [children, childrenOfPattern, laddered_name])
  · exact hi.openRangePattern h
  · exact hi.openRangePattern h
  · simp only [reads_bind, reads_bracketed, reads_pure] at h
    obtain ⟨r, _, hr, rfl, _⟩ := h
    exact .intro trivial (by simpa [children, childrenOfPattern] using delimited_all hi.pattern hr)
  · simp only [reads_bind, reads_bracketed, reads_pure] at h
    obtain ⟨r, _, hr, rfl, _⟩ := h
    exact .intro trivial
      (by simpa [children, childrenOfPattern] using delimited_all hi.fieldPattern hr)
  · simp only [reads_ite, reads_throw, and_false, or_false] at h
    exact hi.literalPattern h.2

end Patterns

section Declarations

private theorem Climbs.operation (hi : Climbs inner) {d : Decl}
    (h : Reads (operation inner) s d t) :
    (Node.decl d).Laddered := by
  simp only [Grammar.operation, reads_bind, reads_get, reads_ite, reads_pure, reads_upToHere,
    and_assoc, exists_and_left, exists_eq_left] at h
  obtain ⟨_, _, _, n, _, _, _, _, _, protocol, _, _, _, _, _, method, _, _, target, _,
    htarget, h⟩ := h
  rcases h with ⟨_, query, _, hquery, metadata, _, hmetadata, rfl, _⟩ | ⟨_, metadata, _,
    hmetadata, rfl, _⟩
  · refine .intro trivial ?_
    have := hi.optionalObject hmetadata
    simp [children, childrenOfDecl, ofOption, laddered_name, hi.string htarget,
      hi.string hquery] at this ⊢
    exact this
  · refine .intro trivial ?_
    have := hi.optionalObject hmetadata
    simp [children, childrenOfDecl, ofOption, laddered_name, hi.string htarget] at this ⊢
    exact this

private theorem Climbs.profile (hi : Climbs inner) {d : Decl} (h : Reads (profile inner) s d t) :
    (Node.decl d).Laddered := by
  simp only [Grammar.profile, reads_bind, reads_pure] at h
  obtain ⟨_, _, _, n, _, _, fields, _, hfields, rfl, _⟩ := h
  exact .intro trivial (by simp [children, childrenOfDecl, laddered_name, hi.object hfields])

omit [∀ e, Advances (inner e)] in
private theorem Climbs.functionBody (hi : Climbs inner) {b : Body}
    (h : Reads (functionBody inner) s b t) :
    (ofBody b).Laddered := by
  simp only [Grammar.functionBody, reads_bind, reads_accept, reads_ite, reads_get, reads_pure,
    reads_unexpected, and_false, or_false, and_assoc, exists_and_left, exists_eq_left] at h
  obtain ⟨_, _, _, ⟨_, e, _, he, rfl, _⟩ | ⟨_, _, b, _, hb, rfl, _⟩⟩ := h
  · exact hi.expression he
  · exact hi.block hb

omit [∀ e, Advances (inner e)] in
private theorem Climbs.function (hi : Climbs inner) {d : Decl} (h : Reads (function inner) s d t) :
    (Node.decl d).Laddered := by
  simp only [Grammar.function, reads_bind, reads_pure, reads_upToHere, and_assoc, exists_and_left,
    exists_eq_left] at h
  obtain ⟨_, _, _, n, _, _, _, _, _, params, _, _, body, _, hbody, rfl, _⟩ := h
  have hnames : ∀ c ∈ params.map Node.name, c.Laddered :=
    List.forall_mem_map.2 fun n _ => laddered_name n
  refine .intro trivial
    (List.forall_mem_cons.2 ⟨laddered_name n, List.forall_mem_append.2 ⟨hnames, ?_⟩⟩)
  exact List.forall_mem_singleton.2 (hi.functionBody hbody)

omit [∀ e, Advances (inner e)] in
private theorem Climbs.binding (hi : Climbs inner) {d : Decl} (h : Reads (binding inner) s d t) :
    (Node.decl d).Laddered := by
  simp only [Grammar.binding, reads_bind, reads_pure] at h
  obtain ⟨_, _, _, p, _, hp, _, _, _, value, _, hvalue, rfl, _⟩ := h
  exact .intro trivial (by simp [children, childrenOfDecl, hi.pattern hp, hi.expression hvalue])

omit [∀ e, Advances (inner e)] in
private theorem pathTarget_ne_expr {target : UseTarget} {e : Expr}
    (h : Reads pathTarget s target t) : target ≠ .expr e := by
  simp only [Grammar.pathTarget, reads_bind, reads_accept, reads_ite, reads_pure] at h
  rintro rfl
  obtain ⟨path, _, _, _, _, _, ⟨_, _, _, _, ⟨_, h, _⟩ | ⟨_, _, _, _, h, _⟩⟩ | ⟨_, h, _⟩⟩ :=
    h <;> cases h

omit [∀ e, Advances (inner e)] in
private theorem Climbs.use (hi : Climbs inner) {d : Decl} (h : Reads (use inner) s d t) :
    (Node.decl d).Laddered := by
  simp only [Grammar.use, reads_bind, reads_get, reads_ite, reads_pure, and_assoc, exists_and_left,
    exists_eq_left] at h
  obtain ⟨_, u, _, h⟩ := h
  have assemble {target : UseTarget} {body : Option Block} {span : Span}
      (htarget : ∀ e, target = .expr e → (Node.expr e).Laddered)
      (hbody : ∀ b ∈ body, (Node.block b).Laddered) :
      (Node.decl (.use span target body)).Laddered := by
    refine .intro trivial (List.forall_mem_append.2 ⟨?_, ?_⟩)
    · cases target <;> simp [laddered_name, or_imp, forall_and]
      exact htarget _ rfl
    · simpa [ofOption] using hbody
  rcases h with ⟨_, _, target, v, htarget, h⟩ | ⟨_, e, v, he, h⟩
  · have htarget (e : Expr) (he : target = .expr e) : (Node.expr e).Laddered :=
      absurd he (pathTarget_ne_expr htarget)
    rcases h with ⟨_, b, _, hb, _, _, ⟨rfl, _⟩, rfl, _⟩ | ⟨_, _, _, ⟨rfl, _⟩, rfl, _⟩
    · exact assemble htarget (by simpa using hi.block hb)
    · exact assemble htarget (by simp)
  · have htarget (e' : Expr) (he' : UseTarget.expr e = .expr e') : (Node.expr e').Laddered := by
      cases he'
      exact hi.expression he
    rcases h with ⟨_, b, _, hb, _, _, ⟨rfl, _⟩, rfl, _⟩ | ⟨_, _, _, ⟨rfl, _⟩, rfl, _⟩
    · exact assemble htarget (by simpa using hi.block hb)
    · exact assemble htarget (by simp)

private theorem Climbs.declaration? (hi : Climbs inner) {d : Decl}
    (h : Reads (declaration? inner) s (some d) t) :
    (Node.decl d).Laddered := by
  unfold Grammar.declaration? at h
  rw [reads_get_bind] at h
  split at h
  all_goals simp only [reads_bind, reads_pure, Option.some.injEq, reduceCtorEq, false_and] at h
  · obtain ⟨_, _, hd, rfl, _⟩ := h
    exact hi.operation hd
  · obtain ⟨_, _, hd, rfl, _⟩ := h
    exact hi.profile hd
  · obtain ⟨_, _, hd, rfl, _⟩ := h
    exact hi.function hd
  · obtain ⟨_, _, hd, rfl, _⟩ := h
    exact hi.binding hd
  · obtain ⟨_, _, hd, rfl, _⟩ := h
    exact hi.use hd

private theorem Climbs.item (hi : Climbs inner) {i : Item} (h : Reads (item inner) s i t) :
    (Node.item i).Laddered := by
  unfold Grammar.item at h
  obtain ⟨d, u, hd, h⟩ := reads_bind.1 h
  cases d with
  | some d =>
    obtain ⟨rfl, _⟩ := reads_pure.1 h
    exact .intro trivial (by simp [children, hi.declaration? hd])
  | none =>
    obtain ⟨e, _, he, hpure⟩ := reads_bind.1 h
    obtain ⟨rfl, _⟩ := reads_pure.1 hpure
    exact .intro trivial (by simp [children, hi.expression he])

end Declarations

section Runs

private theorem Climbs.variations? (hi : Climbs inner) {v : Option Variations}
    (h : Reads (variations? inner) s v t) :
    ∀ n ∈ ofOption Node.variations v, n.Laddered := by
  simp only [Grammar.variations?, reads_bind, reads_get, reads_accept, reads_ite, reads_pure,
    and_assoc, exists_and_left, exists_eq_left] at h
  obtain ⟨_, _, _, ⟨_, _, _, _, axes, _, haxes, rfl, _⟩ | ⟨_, rfl, _⟩⟩ := h
  · have := hi.object haxes
    simpa [ofOption] using Everywhere.intro trivial (by simp [children, hi.object haxes])
  · simp [ofOption]

private theorem Climbs.step (hi : Climbs inner) {i : RunItem} (h : Reads (step inner) s i t) :
    (Node.runItem i).Laddered := by
  simp only [Grammar.step, reads_bind, reads_get, reads_ite, reads_pure, reads_upToHere, and_assoc,
    exists_and_left, exists_eq_left] at h
  obtain ⟨n, _, _, _, _, _, operation, _, _, ⟨_, args, _, hargs, rfl, _⟩ | ⟨_, rfl, _⟩⟩ := h
  · exact .intro trivial (by simp [children, ofOption, laddered_name, hi.object hargs])
  · exact .intro trivial (by simp [children, ofOption, laddered_name])

omit [∀ e, Advances (inner e)] in
private theorem laddered_path {i : RunItem} (h : Reads path s i t) : (Node.runItem i).Laddered := by
  simp only [Grammar.path, reads_bind, reads_pure] at h
  obtain ⟨_, _, _, _, _, _, _, _, _, chain, _, _, _, _, _, rfl, _⟩ := h
  exact .intro trivial (by simp [children, laddered_name])

private theorem Climbs.runItem (hi : Climbs inner) {i : RunItem} (h : Reads (runItem inner) s i t) :
    (Node.runItem i).Laddered := by
  unfold Grammar.runItem at h
  rw [reads_get_bind, reads_ite, reads_ite] at h
  rcases h with ⟨_, h⟩ | ⟨_, ⟨_, h⟩ | ⟨_, h⟩⟩
  · exact laddered_path h
  · exact hi.step h
  · obtain ⟨d, _, hd, hrest⟩ := reads_bind.1 h
    cases d with
    | none => exact (reads_unexpected.1 hrest).elim
    | some d =>
      obtain ⟨rfl, _⟩ := reads_pure.1 hrest
      exact .intro trivial (by simp [children, hi.declaration? hd])

private theorem Climbs.run (hi : Climbs inner) {r : Run} (h : Reads (run inner) s r t) :
    (Node.run r).Laddered := by
  simp only [Grammar.run, reads_bind, reads_get, reads_ite, and_assoc, exists_and_left,
    exists_eq_left] at h
  obtain ⟨_, _, _, ⟨_, h⟩ | ⟨_, h⟩⟩ := h
  · simp only [Grammar.runBlock, reads_bind, reads_pure] at h
    obtain ⟨_, _, _, items, _, hitems, _, _, _, rfl, _⟩ := h
    rw [reads_statements atBlockEnd_of_atEnd] at hitems
    exact .intro trivial (by simpa [children] using hitems.all hi.runItem)
  · simp only [Grammar.inlineRun, reads_bind, reads_pure, reads_upToHere, and_assoc,
      exists_and_left, exists_eq_left] at h
    obtain ⟨target, _, _, args, _, hargs, variations, _, hvariations, rfl, _⟩ := h
    refine .intro trivial (List.forall_mem_append.2 ⟨?_, hi.variations? hvariations⟩)
    exact List.forall_mem_cons.2 ⟨laddered_name target, hi.optionalObject hargs⟩

end Runs

section Expressions

theorem laddered_of_onLadder {e : Expr} (h : e.OnLadder) (hc : ∀ c ∈ childrenOfExpr e, c.Laddered) :
    (Node.expr e).Laddered := .intro h hc

section Primary

omit [∀ e, Advances (inner e)]

private theorem Climbs.literalOrRange (hi : Climbs inner) {e : Expr}
    (h : Reads (literalOrRange inner) s e t) :
    (Node.expr e).Laddered ∧ 9 ≤ e.tightness := by
  simp only [Grammar.literalOrRange, reads_bind, reads_get, reads_ite, reads_pure, and_assoc,
    exists_and_left, exists_eq_left] at h
  obtain ⟨l, _, hl, ⟨_, _, _, _, _, h⟩ | ⟨_, rfl, _⟩⟩ := h
  · rcases h with ⟨_, stop, _, hstop, _, _, _, rfl, _⟩ | ⟨_, _, _, _, rfl, _⟩
    · exact ⟨.intro trivial
        (by simp [children, childrenOfExpr, ofOption, hi.literal hl, hi.literal hstop]),
        Nat.le_refl _⟩
    · exact ⟨.intro trivial (by simp [children, childrenOfExpr, ofOption, hi.literal hl]),
        Nat.le_refl _⟩
  · exact ⟨.intro trivial (by simp [children, childrenOfExpr, hi.literal hl]), Nat.le_refl _⟩

private theorem Climbs.openRange (hi : Climbs inner) {e : Expr}
    (h : Reads (openRange inner) s e t) :
    (Node.expr e).Laddered ∧ 9 ≤ e.tightness := by
  simp only [Grammar.openRange, reads_bind, reads_ask, reads_get, reads_ite, reads_pure,
    reads_unexpected, and_assoc, exists_and_left, exists_eq_left, and_false, or_false] at h
  obtain ⟨_, _, _, _, stop, _, hstop, rfl, _⟩ := h
  exact ⟨.intro trivial (by simp [children, childrenOfExpr, ofOption, hi.literal hstop]),
    Nat.le_refl _⟩

private theorem laddered_environment {e : Expr} (h : Reads environment s e t) :
    (Node.expr e).Laddered ∧ 9 ≤ e.tightness := by
  simp only [Grammar.environment, reads_bind, reads_pure] at h
  obtain ⟨_, _, _, _, _, _, n, _, _, rfl, _⟩ := h
  exact ⟨.intro trivial (by simp [children, childrenOfExpr, laddered_name]), Nat.le_refl _⟩

private theorem Climbs.parenthesized (hi : Climbs inner) {e : Expr}
    (h : Reads (parenthesized inner) s e t) :
    (Node.expr e).Laddered ∧ 9 ≤ e.tightness := by
  simp only [Grammar.parenthesized, reads_bind, reads_pure] at h
  obtain ⟨_, _, _, e, _, he, _, _, _, rfl, _⟩ := h
  exact ⟨.intro trivial (by simp [children, childrenOfExpr, hi.expression he]), Nat.le_refl _⟩

private theorem Climbs.alternative? (hi : Climbs inner) {a : Option Alternative}
    (h : Reads (alternative? inner) s a t) :
    ∀ n ∈ ofOption ofAlternative a, n.Laddered := by
  simp only [Grammar.alternative?, reads_bind, reads_accept, reads_get, reads_ite, reads_pure,
    and_assoc, exists_and_left, exists_eq_left] at h
  obtain ⟨_, _, _, ⟨_, ⟨_, c, _, hc, rfl, _⟩ | ⟨_, b, _, hb, rfl, _⟩⟩ | ⟨_, rfl, _⟩⟩ := h
  · simpa [ofOption, ofAlternative] using hi.alternative hc
  · simpa [ofOption, ofAlternative] using hi.block hb
  · simp [ofOption]

private theorem Climbs.conditionalForm (hi : Climbs inner) {c : Conditional}
    (h : Reads (conditional inner) s c t) :
    (Node.conditional c).Laddered := by
  simp only [Grammar.conditional, reads_bind, reads_pure, reads_upToHere, and_assoc,
    exists_and_left, exists_eq_left] at h
  obtain ⟨_, _, _, condition, _, hcondition, consequence, _, hconsequence, a, _, ha, rfl, _⟩ := h
  refine .intro trivial (List.forall_mem_append.2 ⟨?_, hi.alternative? ha⟩)
  simp [hi.expression hcondition, hi.block hconsequence]

private theorem Climbs.arm (hi : Climbs inner) {a : Arm} (h : Reads (arm inner) s a t) :
    (Node.arm a).Laddered := by
  simp only [Grammar.arm, reads_bind, reads_accept, reads_ite, reads_pure] at h
  obtain ⟨p, _, hp, _, _, _, ⟨_, g, _, hg, _, _, ⟨rfl, _⟩, _, _, _, body, _, hbody, rfl, _⟩ |
    ⟨_, _, _, ⟨rfl, _⟩, _, _, _, body, _, hbody, rfl, _⟩⟩ := h
  · exact .intro trivial
      (by simp [children, ofOption, hi.pattern hp, hi.expression hg, hi.expression hbody])
  · exact .intro trivial (by simp [children, ofOption, hi.pattern hp, hi.expression hbody])

private theorem Climbs.lambda (hi : Climbs inner) {e : Expr} (h : Reads (lambda inner) s e t) :
    (Node.expr e).Laddered ∧ 9 ≤ e.tightness := by
  simp only [Grammar.lambda, reads_bind, reads_ask, reads_operand, reads_pure, and_assoc,
    exists_and_left, exists_eq_left, exists_const] at h
  obtain ⟨params, _, _, _, body, _, hbody, rfl, _⟩ := h
  have hparams : ∀ c ∈ params.map Node.name, c.Laddered :=
    List.forall_mem_map.2 fun n _ => laddered_name n
  refine ⟨.intro trivial (List.forall_mem_append.2 ⟨hparams, ?_⟩), Nat.le_refl _⟩
  simpa using hi.expression hbody

end Primary

private theorem Climbs.array (hi : Climbs inner) {e : Expr} (h : Reads (array inner) s e t) :
    (Node.expr e).Laddered ∧ 9 ≤ e.tightness := by
  simp only [Grammar.array, reads_bind, reads_pure] at h
  obtain ⟨_, _, _, r, _, hr, rfl, _⟩ := h
  exact ⟨.intro trivial (by simpa [children, childrenOfExpr] using delimited_all hi.expression hr),
    Nat.le_refl _⟩

private theorem Climbs.braced [Consumes (inner .expression)] (hi : Climbs inner) {e : Expr}
    (h : Reads (braced inner) s e t) :
    (Node.expr e).Laddered ∧ 9 ≤ e.tightness := by
  simp only [Grammar.braced, reads_bind, reads_get, reads_ite, reads_pure, and_assoc,
    exists_and_left, exists_eq_left] at h
  rcases h with ⟨_, o, _, ho, rfl, _⟩ | ⟨_, b, _, hb, rfl, _⟩
  · exact ⟨.intro trivial (by simp [children, childrenOfExpr, hi.object ho]), Nat.le_refl _⟩
  · exact ⟨.intro trivial (by simp [children, childrenOfExpr, Climbs.statements hi.item hb]),
      Nat.le_refl _⟩

private theorem Climbs.choice (hi : Climbs inner) {c : Choice} (h : Reads (choice inner) s c t) :
    (Node.choice c).Laddered := by
  simp only [Grammar.choice, reads_bind, reads_pure] at h
  obtain ⟨_, _, _, subject, _, hsubject, _, _, _, r, _, hr, rfl, _⟩ := h
  refine .intro trivial (List.forall_mem_cons.2 ⟨hi.expression hsubject, ?_⟩)
  simpa using delimited_all hi.arm hr

private theorem Climbs.arguments (hi : Climbs inner) {r : List Expr × Span}
    (h : Reads (arguments inner) s r t) :
    ∀ c ∈ r.1.map Node.expr, c.Laddered := by
  obtain ⟨_, _, _, h⟩ := reads_arguments.1 h
  simpa using delimited_all hi.expression h

private theorem Climbs.emission (hi : Climbs inner) {e : Expr} (h : Reads (emission inner) s e t) :
    (Node.expr e).Laddered ∧ e.isEmission = true := by
  simp only [Grammar.emission, reads_bind, reads_get, reads_ite, reads_advance, reads_pure,
    reads_unexpected, and_assoc, exists_and_left, exists_eq_left, exists_const, and_false,
    false_or] at h
  obtain ⟨_, _, _, ⟨_, _, n, _, _, ⟨_, _, r, _, hr, rfl, _⟩ | ⟨_, rfl, _⟩⟩ | ⟨_, _, rfl, _⟩⟩ := h
  · refine ⟨.intro trivial (List.forall_mem_append.2 ⟨?_, hi.arguments hr⟩), rfl⟩
    simp [ofOption, laddered_name]
  · exact ⟨.intro trivial (by simp [children, childrenOfExpr, ofOption, laddered_name]), rfl⟩
  · exact ⟨.intro trivial (by simp [children, childrenOfExpr, ofOption]), rfl⟩

private theorem Climbs.primary [Consumes (inner .expression)] (hi : Climbs inner) {e : Expr}
    (h : Reads (primary inner) s e t) :
    (Node.expr e).Laddered ∧ (e.isEmission = true ∨ 9 ≤ e.tightness) := by
  unfold Grammar.primary at h
  rw [reads_get_bind] at h
  split at h
  · simp only [reads_bind, reads_pure] at h
    obtain ⟨n, _, _, rfl, _⟩ := h
    exact ⟨.intro trivial (by simp [children, childrenOfExpr, laddered_name]), .inr (Nat.le_refl _)⟩
  · exact (laddered_environment h).imp_right .inr
  · exact (hi.openRange h).imp_right .inr
  · exact (hi.openRange h).imp_right .inr
  · exact (hi.parenthesized h).imp_right .inr
  · exact (hi.array h).imp_right .inr
  · exact (hi.braced h).imp_right .inr
  · simp only [reads_bind, reads_pure] at h
    obtain ⟨c, _, hc, rfl, _⟩ := h
    exact ⟨.intro trivial (by simp [children, childrenOfExpr, hi.conditionalForm hc]),
      .inr (Nat.le_refl _)⟩
  · simp only [reads_bind, reads_pure] at h
    obtain ⟨c, _, hc, rfl, _⟩ := h
    exact ⟨.intro trivial (by simp [children, childrenOfExpr, hi.choice hc]), .inr (Nat.le_refl _)⟩
  · exact (hi.lambda h).imp_right .inr
  · exact (hi.lambda h).imp_right .inr
  · simp only [reads_bind, reads_pure] at h
    obtain ⟨r, _, hr, rfl, _⟩ := h
    exact ⟨.intro trivial (by simp [children, childrenOfExpr, hi.run hr]), .inr (Nat.le_refl _)⟩
  · exact (hi.emission h).imp_right .inl
  · simp only [reads_ite, reads_unexpected, and_false, or_false] at h
    exact (hi.literalOrRange h.2).imp_right .inr

private theorem Climbs.suffix? (hi : Climbs inner) {e e' : Expr}
    (he : (Node.expr e).Laddered ∧ 9 ≤ e.tightness) (h : Reads (suffix? inner e) s (some e') t) :
    (Node.expr e').Laddered ∧ 9 ≤ e'.tightness := by
  obtain ⟨hladder, htight⟩ := he
  have htakes := Expr.takesSuffix_iff.2 htight
  unfold Grammar.suffix? at h
  rw [reads_get_bind] at h
  split at h
  · simp only [reads_bind, reads_pure, Option.some.injEq] at h
    obtain ⟨_, _, _, n, _, _, rfl, _⟩ := h
    exact ⟨.intro htakes (by simp [children, childrenOfExpr, hladder, laddered_name]),
      Nat.le_refl _⟩
  · simp only [reads_bind, reads_pure, Option.some.injEq] at h
    obtain ⟨_, _, _, index, _, hindex, _, _, _, rfl, _⟩ := h
    exact ⟨.intro htakes (by simp [children, childrenOfExpr, hladder, hi.expression hindex]),
      Nat.le_refl _⟩
  · simp only [reads_bind, reads_pure, Option.some.injEq] at h
    obtain ⟨r, _, hr, rfl, _⟩ := h
    exact ⟨.intro htakes (List.forall_mem_cons.2 ⟨hladder, hi.arguments hr⟩), Nat.le_refl _⟩
  · simp only [reads_pure, reduceCtorEq, false_and] at h

private theorem Climbs.postfixed [Consumes (inner .expression)] (hi : Climbs inner) {e : Expr}
    (h : Reads (postfixed inner) s e t) : (Node.expr e).Laddered ∧ 8 ≤ e.tightness := by
  obtain ⟨e₀, s₁, he₀, hrest⟩ := reads_bind.1 h
  have hprimary := hi.primary he₀
  clear he₀ h
  split at hrest
  · obtain ⟨rfl, _⟩ := reads_pure.1 hrest
    exact ⟨hprimary.1, Nat.le_refl _⟩
  · rename_i hemit
    have htight : 9 ≤ e₀.tightness := by
      refine hprimary.2.resolve_left fun he => ?_
      cases e₀ with
      | emit s format args => exact hemit s format args rfl
      | _ => cases he
    have hladder := hprimary.1
    clear hemit hprimary
    rw [reads_repeated suffix?_productive] at hrest
    induction hrest with
    | done => exact ⟨hladder, Nat.le_of_succ_le htight⟩
    | more h _ ih =>
      obtain ⟨hladder', htight'⟩ := hi.suffix? ⟨hladder, htight⟩ h
      exact ih htight' hladder'

private theorem Climbs.unary [Consumes (inner .expression)] (hi : Climbs inner) {e : Expr}
    (h : Reads (unary inner) s e t) :
    (Node.expr e).Laddered ∧ 8 ≤ e.tightness := by
  unfold Grammar.unary at h
  rw [reads_get_bind] at h
  split at h
  · simp only [reads_bind, reads_pure] at h
    obtain ⟨_, _, _, _, _, _, e, _, he, rfl, _⟩ := h
    obtain ⟨hladder, htight⟩ := hi.operand he
    exact ⟨laddered_of_onLadder (Expr.onLadder_unary htight) (by simp [childrenOfExpr, hladder]),
      Nat.le_refl _⟩
  · exact hi.postfixed h

omit [∀ e, Advances (inner e)] in
theorem operatorOf_precedence {precedence : Nat} {l : Lexeme} {op : BinaryOp}
    (h : operatorOf precedence l = some op) : op.precedence = precedence := by
  simpa using (Option.filter_eq_some_iff.1 h).2

private theorem Climbs.binary [Consumes (inner .expression)] (hi : Climbs inner)
    (precedences : List Nat) (hsorted : precedences.Pairwise (· < ·))
    (hbound : ∀ q ∈ precedences, q < 8) {e : Expr} (h : Reads (binary inner precedences) s e t) :
    (Node.expr e).Laddered ∧ ∀ p < 8, (∀ q ∈ precedences, p < q) → p < e.tightness := by
  induction precedences generalizing s e t with
  | nil =>
    obtain ⟨hladder, htight⟩ := hi.unary h
    exact ⟨hladder, fun p hp _ => Nat.lt_of_lt_of_le hp htight⟩
  | cons precedence tighter ih =>
    obtain ⟨hlooser, hsorted⟩ := List.pairwise_cons.1 hsorted
    obtain ⟨hprecedence, hbound⟩ := List.forall_mem_cons.1 hbound
    have hoperand {s t : State} {e : Expr} (h : Reads (Grammar.binary inner tighter) s e t) :
        (Node.expr e).Laddered ∧ precedence < e.tightness :=
      (ih hsorted hbound h).imp_right fun htight => htight precedence hprecedence hlooser
    obtain ⟨left, s₁, hleft, hrest⟩ := reads_bind.1 h
    rw [reads_repeated extend?_productive] at hrest
    have hrest : (Node.expr e).Laddered ∧ precedence ≤ e.tightness := by
      obtain ⟨hladder, htight⟩ := hoperand hleft
      replace htight := Nat.le_of_lt htight
      clear h hleft
      induction hrest with
      | done => exact ⟨hladder, htight⟩
      | more hround _ ih =>
        obtain ⟨l, op, right, _, hop, _, hright, rfl⟩ := extend?_some hround
        obtain ⟨hladder', htight'⟩ := hoperand hright
        have hop := operatorOf_precedence hop
        refine ih (laddered_of_onLadder (Expr.onLadder_binary ?_ ?_) ?_) (Nat.le_of_eq hop.symm)
        · rwa [hop]
        · rwa [hop]
        · simp [childrenOfExpr, hladder, hladder']
    refine ⟨hrest.1, fun p _ hp => Nat.lt_of_lt_of_le (hp precedence List.mem_cons_self) hrest.2⟩

private theorem Climbs.pipe [Consumes (inner .expression)] (hi : Climbs inner) {e : Expr}
    (h : Reads (pipe inner) s e t) :
    (Node.expr e).Laddered := by
  rw [pipe_eq] at h
  have hoperand {s t : State} {e : Expr}
    (h : Reads (Grammar.binary inner BinaryOp.precedences) s e t) :
      (Node.expr e).Laddered ∧ 1 < e.tightness :=
    (hi.binary _ (by decide) (by decide) h).imp_right fun htight => htight 1 (by decide) (by decide)
  obtain ⟨left, s₁, hleft, hrest⟩ := reads_bind.1 h
  rw [reads_repeated extend?_productive] at hrest
  have hladder := (hoperand hleft).1
  clear h hleft
  induction hrest with
  | done => exact hladder
  | more hround _ ih =>
    obtain ⟨_, _, right, _, _, _, hright, rfl⟩ := extend?_some hround
    obtain ⟨hladder', htight'⟩ := hoperand hright
    exact ih (laddered_of_onLadder (Expr.isPipe_eq_false htight')
      (by simp [childrenOfExpr, hladder, hladder']))

end Expressions

omit [∀ e, Advances (inner e)] in
private theorem climbs_enter (limit room : Nat) : Climbs (enter limit room) := by
  induction room with
  | zero => constructor <;> · intro s t v h; cases h
  | succ room ih =>
    exact
      { expression := ih.pipe
        operand := ih.unary
        alternative := ih.conditionalForm
        block := Climbs.statements ih.item
        pattern := ih.patternForm }

end Grammar

open Grammar

/-- All nodes of the programs and expressions that texts are read as are on the ladder, with
diagnostics or without, those of code embedded in strings included. -/
theorem parse_onLadder (source : String) (limit : Nat) :
    (parse source limit).1.Everywhere Node.OnLadder ∧
      ∀ e ∈ (parseExpr source).1, (Node.expr e).Everywhere Node.OnLadder := by
  constructor
  · obtain ⟨finish, hread, _⟩ := reads_parse source limit
    rcases reads_script.1 hread with ⟨_, hp, _⟩ | ⟨_, hitems, _⟩
    · rw [hp]
      exact fun i hi => nomatch hi
    · exact hitems.all (climbs_enter limit limit).item
  · intro e he
    obtain ⟨finish, hread, _⟩ := parseExpr_eq_some.1 (Prod.ext he rfl)
    exact (climbs_enter _ _).expression (reads_wholeExpression.1 hread).2.1

/-- Operators of three precedences, a negation, a pipe and a call in the code of a string, in a
statement behind one that fails. -/
theorem parse_onLadder_behind_failure : ∃ i is,
    (parse "let = 1\nlet a = \"\x24\x7ba - b - c * -d |> f(b)\x7d\"" 8).1.items = i :: is ∧
      (Node.item i).Everywhere Node.OnLadder := by
  have hlength :
      0 < (parse "let = 1\nlet a = \"\x24\x7ba - b - c * -d |> f(b)\x7d\"" 8).1.items.length := by
    decide +kernel
  obtain ⟨i, is, hitems⟩ := List.exists_cons_of_length_pos hlength
  exact ⟨i, is, hitems, (parse_onLadder _ 8).1 i (hitems ▸ List.mem_cons_self)⟩

end ApiScript
