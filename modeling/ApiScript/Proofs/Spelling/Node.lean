import ApiScript.Proofs.Lexing.Tokens

set_option autoImplicit false
set_option relaxedAutoImplicit false

/-!
The nodes of a tree under one type: their spans and marks, and where the marks of a node's children
stand among its own.
-/

namespace ApiScript

open Mark

namespace Node

def span : Node → Span
  | name n => n.span
  | expr e => e.span
  | literal l => l.span
  | string s => s.span
  | object o => o.span
  | field f => f.span
  | block b => b.span
  | item (.decl d) => d.span
  | item (.expr e) => e.span
  | decl d => d.span
  | pattern p => p.span
  | fieldPattern f => f.span
  | conditional c => c.span
  | choice c => c.span
  | arm a => a.span
  | run r => r.span
  | runItem (.step s _ _ _) => s
  | runItem (.path s _) => s
  | runItem (.decl d) => d.span
  | variations v => v.span

def marks : Node → List Mark
  | name n => n.stepMarks
  | expr e => e.marks
  | literal l => l.marks
  | string s => s.marks
  | object o => o.marks
  | field f => f.marks
  | block b => b.marks
  | item i => i.marks
  | decl d => d.marks
  | pattern p => p.marks
  | fieldPattern f => f.marks
  | conditional c => c.marks
  | choice c => c.marks
  | arm a => a.marks
  | run r => r.marks
  | runItem i => i.marks
  | variations v => v.marks

/-- The tokens stand for the node, with `rest` behind them; between statements in it, tokens may
have been skipped. A name is one token, which need not be an identifier. -/
def Written : Node → List Token → List Token → Prop
  | name n, ts, _ => n.span.Covers ts ∧ ts.map (·.lexeme.spelling) = [n.text]
  | n, ts, rest => Mark.SpelledAll true n.marks ts rest

end Node

def Mark.Stands (ms : List Mark) (n : Node) : Prop :=
  ∀ ⦃ts rest : List Token⦄, SpelledAll true ms ts rest → n.Written ts rest

private theorem Node.marks_isNode (n : Node) : IsNode n.span n.marks := by
  cases n with
  | name n => exact ⟨_, rfl⟩
  | expr e => exact e.marks_isNode
  | literal l => exact l.marks_isNode
  | string s => exact s.marks_isNode
  | object o => exact o.marks_isNode
  | field f =>
    cases f
    rw [Node.marks, Field.marks]
    exact ⟨_, rfl⟩
  | block b => exact b.marks_isNode
  | item i =>
    cases i <;>
    · rw [Node.marks, Item.marks]
      exact ⟨_, rfl⟩
  | decl d => exact d.marks_isNode
  | pattern p => exact p.marks_isNode
  | fieldPattern f =>
    cases f
    rw [Node.marks, FieldPattern.marks.eq_def]
    exact ⟨_, rfl⟩
  | conditional c => exact c.marks_isNode
  | choice c => exact c.marks_isNode
  | arm a =>
    cases a
    rw [Node.marks, Arm.marks.eq_def]
    exact ⟨_, rfl⟩
  | run r => exact r.marks_isNode
  | runItem i =>
    cases i <;>
    · rw [Node.marks, RunItem.marks.eq_def]
      exact ⟨_, rfl⟩
  | variations v => exact v.marks_isNode

private theorem Node.stands (n : Node) : Stands n.marks n := by
  intro ts rest h
  cases n with
  | name n =>
    simp only [Node.marks, Name.stepMarks, spelledAll_singleton, Mark.Spelled] at h
    obtain ⟨hspan, t, rfl, hlexeme, _⟩ := h
    refine ⟨hspan, ?_⟩
    rw [List.map_cons, hlexeme, List.map_nil, Name.lexeme, Lexeme.ofWord_spelling]
  | _ => exact h

theorem Node.Written.covers {n : Node} {ts rest : List Token} (h : n.Written ts rest) :
    n.span.Covers ts := by
  have node {span : Span} {ms : List Mark} (hms : IsNode span ms) (h : SpelledAll true ms ts rest) :
      span.Covers ts := by
    obtain ⟨body, rfl⟩ := hms
    rw [spelledAll_singleton, Mark.Spelled] at h
    exact h.1
  cases n with
  | name n => exact h.1
  | _ => exact node (Node.marks_isNode _) h

inductive Mark.Lists : List Mark → List Node → Prop
  | nil : Lists [] []
  | skip {ms : List Mark} {ns : List Node} (m : Mark) (h : Lists ms ns) : Lists (m :: ms) ns
  | node {m : Mark} {n : Node} {ms : List Mark} {ns : List Node} (hm : Stands [m] n)
    (h : Lists ms ns) :
    Lists (m :: ms) (n :: ns)

namespace Mark.Lists

variable {ms ms' : List Mark} {ns ns' : List Node} {n : Node}

private theorem append (h : Lists ms ns) (k : Lists ms' ns') : Lists (ms ++ ms') (ns ++ ns') := by
  induction h with
  | nil => exact k
  | skip m _ ih => exact .skip m ih
  | node hm _ ih => exact .node hm ih

private theorem none (ms : List Mark) : Lists ms [] := by
  induction ms with
  | nil => exact .nil
  | cons m ms ih => exact .skip m ih

private theorem behind (h : Lists ms ns) (ms' : List Mark) : Lists (ms ++ ms') ns := by
  have hboth := h.append (none ms')
  rwa [List.append_nil] at hboth

private theorem before (ms' : List Mark) (h : Lists ms ns) : Lists (ms' ++ ms) ns :=
  (none ms').append h

private theorem one {span : Span} (h : IsNode span ms) (hn : Stands ms n) : Lists ms [n] := by
  obtain ⟨body, rfl⟩ := h
  exact .node hn .nil

private theorem name (n : Name) (follow : Follow) : Lists (n.marks follow) [.name n] := by
  refine .one (n.marks_isNode follow) fun ts rest h => ?_
  simp only [Name.marks, spelledAll_singleton, Mark.Spelled] at h
  obtain ⟨hspan, t, rfl, hlexeme, _⟩ := h
  exact ⟨hspan, by simp [hlexeme, Lexeme.spelling]⟩

theorem ofNode (n : Node) : Lists n.marks [n] := .one n.marks_isNode n.stands

private theorem key (k : Key) : Lists k.marks [Node.ofKey k] := by
  cases k with
  | name n =>
    rw [Key.marks]
    exact .name n .any
  | string l =>
    rw [Key.marks]
    exact .ofNode (.string l)

private theorem body (b : Body) : Lists b.marks [Node.ofBody b] := by
  cases b with
  | block b =>
    rw [Body.marks]
    exact .ofNode (.block b)
  | expr e =>
    rw [Body.marks]
    exact .skip _ (.ofNode (.expr e))

section Many

variable {α : Type} {marks : α → List Mark} {make : α → Node}

theorem flatMap (front behind : α → List Mark) (h : ∀ a, Lists (marks a) [make a]) (as : List α) :
    Lists (as.flatMap fun a => front a ++ marks a ++ behind a) (as.map make) := by
  induction as with
  | nil => exact .nil
  | cons a as ih =>
    have hone := (((none (front a)).append (h a)).append (none (behind a))).append ih
    exact hone

private theorem separated (h : ∀ a, Lists (marks a) [make a]) (separator : Symbol) (as : List α) :
    Lists (Mark.separated separator (as.map marks)) (as.map make) := by
  cases as with
  | nil => exact .nil
  | cons a as =>
    have hrest := flatMap (fun _ => [symbol separator]) (fun _ => []) h as
    have hone := (h a).append hrest
    simpa [Mark.separated, List.flatMap_map] using hone

private theorem listed (h : ∀ a, Lists (marks a) [make a]) (opener closer : Symbol) (more : Bool)
    (as : List α) :
    Lists (Mark.listed opener closer more (as.map marks)) (as.map make) := by
  cases as with
  | nil => exact none _
  | cons a as =>
    have hone := Lists.skip (symbol opener) ((separated h .comma (a :: as)).append
      (none [if more then .trailing closer else symbol closer]))
    simpa [Mark.listed] using hone

end Many

end Mark.Lists

open Mark.Lists

private theorem Expr.lists_children (e : Expr) :
    ∃ body, e.marks = [.node e.span body] ∧ Lists body (Node.childrenOfExpr e) := by
  cases e with
  | pipe s left right | binary s _ left right =>
    rw [Expr.marks]
    exact ⟨_, rfl, ((ofNode (.expr left)).behind _).append (ofNode (.expr right))⟩
  | unary s op e =>
    rw [Expr.marks]
    exact ⟨_, rfl, .skip _ (ofNode (.expr e))⟩
  | call s callee args =>
    rw [Expr.marks, Expr.marksEach_eq_map]
    exact ⟨_, rfl, (ofNode (.expr callee)).append (listed (fun e => ofNode (.expr e)) _ _ _ args)⟩
  | member s object field =>
    rw [Expr.marks]
    exact ⟨_, rfl, ((ofNode (.expr object)).behind _).append (.name field .any)⟩
  | index s object index =>
    rw [Expr.marks]
    exact ⟨_, rfl, (((ofNode (.expr object)).behind _).append (ofNode (.expr index))).behind _⟩
  | literal l =>
    rw [Expr.marks]
    exact ⟨_, rfl, ofNode (.literal l)⟩
  | name n =>
    rw [Expr.marks]
    exact ⟨_, rfl, .name n .any⟩
  | env s n =>
    rw [Expr.marks]
    exact ⟨_, rfl, .before _ (.name n .any)⟩
  | paren s inner =>
    rw [Expr.marks]
    exact ⟨_, rfl, (ofNode (.expr inner)).before _ |>.behind _⟩
  | array s elements =>
    rw [Expr.marks, Expr.marksEach_eq_map]
    exact ⟨_, rfl, listed (fun e => ofNode (.expr e)) _ _ _ elements⟩
  | object o =>
    rw [Expr.marks]
    exact ⟨_, rfl, ofNode (.object o)⟩
  | block b =>
    rw [Expr.marks]
    exact ⟨_, rfl, ofNode (.block b)⟩
  | conditional c =>
    rw [Expr.marks]
    exact ⟨_, rfl, ofNode (.conditional c)⟩
  | choice c =>
    rw [Expr.marks]
    exact ⟨_, rfl, ofNode (.choice c)⟩
  | lambda s params body =>
    rw [Expr.marks]
    refine ⟨_, rfl, .append ?_ (ofNode (.expr body))⟩
    split
    · rename_i hnone
      rw [List.isEmpty_iff.1 hnone]
      exact none _
    · exact listed (fun n => .name n .any) _ _ _ params
  | run r =>
    rw [Expr.marks]
    exact ⟨_, rfl, ofNode (.run r)⟩
  | emit s format args =>
    have hargs (args : List Expr) :=
      listed (fun e => ofNode (.expr e)) .leftParen .rightParen false args
    cases format with
    | none =>
      cases args with
      | none =>
        rw [Expr.marks]
        exact ⟨_, rfl, none _⟩
      | some args =>
        rw [Expr.marks, Expr.marksEach_eq_map]
        exact ⟨_, rfl, .skip _ (hargs args)⟩
    | some format =>
      cases args with
      | none =>
        rw [Expr.marks]
        exact ⟨_, rfl, .before _ (.name format _)⟩
      | some args =>
        rw [Expr.marks, Expr.marksEach_eq_map]
        exact ⟨_, rfl, (Lists.before _ (.name format _)).append (hargs args)⟩
  | range s start stop inclusive =>
    cases start <;> cases stop
    · rw [Expr.marks]
      exact ⟨_, rfl, none _⟩
    · rw [Expr.marks]
      exact ⟨_, rfl, .skip _ (ofNode (.literal _))⟩
    · rw [Expr.marks]
      exact ⟨_, rfl, (ofNode (.literal _)).behind _⟩
    · rw [Expr.marks]
      exact ⟨_, rfl, (ofNode (.literal _)).append (.skip _ (ofNode (.literal _)))⟩

private theorem Decl.lists_children (d : Decl) :
    ∃ body, d.marks = [.node d.span body] ∧ Lists body (Node.childrenOfDecl d) := by
  cases d with
  | operation s n protocol method target query metadata =>
    have hfront := (((((((Lists.name n .any).before [keyword .op]).behind [symbol .assign]).append
      (.name protocol .any)).behind [symbol .dot]).append (.name method .any)).append (ofNode
        (.string target)))
    cases query <;> cases metadata
    · rw [Decl.marks]
      exact ⟨_, rfl, (hfront.behind _).behind _⟩
    · rw [Decl.marks]
      exact ⟨_, rfl, (hfront.behind _).append (ofNode (.object _))⟩
    · rw [Decl.marks]
      exact ⟨_, rfl, (hfront.append (ofNode (.string _))).behind _⟩
    · rw [Decl.marks]
      exact ⟨_, rfl, (hfront.append (ofNode (.string _))).append (ofNode (.object _))⟩
  | profile s n fields =>
    rw [Decl.marks]
    exact ⟨_, rfl, ((Lists.name n .any).before _).append (ofNode (.object fields))⟩
  | function s n params body =>
    rw [Decl.marks]
    exact ⟨_, rfl,
      (((Lists.name n .any).before _).append (listed (fun n => .name n .any) _ _ _ params)).append
      (.body body)⟩
  | binding s pattern value =>
    rw [Decl.marks]
    exact ⟨_, rfl, (((ofNode (.pattern pattern)).before _).behind _).append (ofNode (.expr value))⟩
  | use s target body =>
    have finish {ns : List Node} (h : Lists target.marks ns) : ∃ ms,
        (Decl.use s target body).marks = [.node s ms] ∧
        Lists ms (ns ++ Node.ofOption Node.block body) := by
      cases body with
      | none =>
        rw [Decl.marks]
        exact ⟨_, rfl, (h.before [keyword .use]).append .nil⟩
      | some b =>
        rw [Decl.marks]
        exact ⟨_, rfl, (h.before [keyword .use]).append (ofNode (.block b))⟩
    cases target with
    | glob path =>
      refine finish ?_
      rw [UseTarget.marks]
      exact (separated (fun n => .name n .any) _ path).behind _
    | group path names =>
      refine finish ?_
      rw [UseTarget.marks]
      exact ((separated (fun n => .name n .any) _ path).behind _).append
        (listed (fun n => .name n .any) _ _ _ names)
    | path path =>
      refine finish ?_
      rw [UseTarget.marks]
      exact separated (fun n => .name n .any) _ path
    | expr e =>
      refine finish ?_
      rw [UseTarget.marks]
      exact ofNode (.expr e)

private theorem Pattern.lists_children (p : Pattern) :
    ∃ body, p.marks = [.node p.span body] ∧ Lists body (Node.childrenOfPattern p) := by
  cases p with
  | name n =>
    rw [Pattern.marks]
    exact ⟨_, rfl, .name n .any⟩
  | wildcard s =>
    rw [Pattern.marks]
    exact ⟨_, rfl, none _⟩
  | literal l =>
    rw [Pattern.marks]
    exact ⟨_, rfl, ofNode (.literal l)⟩
  | array s elements =>
    rw [Pattern.marks, Pattern.marksEach_eq_map]
    exact ⟨_, rfl, listed (fun p => ofNode (.pattern p)) _ _ _ elements⟩
  | object s fields =>
    rw [Pattern.marks, FieldPattern.marksEach_eq_map]
    exact ⟨_, rfl, listed (fun f => ofNode (.fieldPattern f)) _ _ _ fields⟩
  | range s start stop inclusive =>
    cases start <;> cases stop
    · rw [Pattern.marks]
      exact ⟨_, rfl, none _⟩
    · rw [Pattern.marks]
      exact ⟨_, rfl, .skip _ (ofNode (.literal _))⟩
    · rw [Pattern.marks]
      exact ⟨_, rfl, (ofNode (.literal _)).behind _⟩
    · rw [Pattern.marks]
      exact ⟨_, rfl, (ofNode (.literal _)).append (.skip _ (ofNode (.literal _)))⟩

private theorem Run.lists_children (r : Run) :
    ∃ body, r.marks = [.node r.span body] ∧ Lists body (Node.run r).children := by
  cases r with
  | inline s target args variations =>
    have hfront := (Lists.name target .any).before [keyword .run]
    cases args <;> cases variations
    · rw [Run.marks]
      exact ⟨_, rfl, (hfront.behind _).behind _⟩
    · rw [Run.marks]
      exact ⟨_, rfl, (hfront.behind _).append (ofNode (.variations _))⟩
    · rw [Run.marks]
      exact ⟨_, rfl, (hfront.append (ofNode (.object _))).behind _⟩
    · rw [Run.marks]
      exact ⟨_, rfl, (hfront.append (ofNode (.object _))).append (ofNode (.variations _))⟩
  | block s items =>
    rw [Run.marks, RunItem.marksAll_eq_flatMap]
    refine ⟨_, rfl, ?_⟩
    have hitems :=
      flatMap (fun _ => []) (fun i => [.seam i.open_]) (fun i => ofNode (.runItem i)) items
    exact (Lists.before _ hitems).behind _

private theorem RunItem.lists_children (i : RunItem) :
    ∃ body, i.marks = [.node (Node.runItem i).span body] ∧
    Lists body (Node.runItem i).children := by
  cases i with
  | step s n operation args =>
    have hfront := (((ofNode (.name n)).behind [symbol .colon]).append (.name operation .any))
    cases args
    · rw [RunItem.marks]
      exact ⟨_, rfl, hfront.behind _⟩
    · rw [RunItem.marks]
      exact ⟨_, rfl, hfront.append (ofNode (.object _))⟩
  | path s chain =>
    rw [RunItem.marks]
    exact ⟨_, rfl, (separated (fun n => .name n .any) _ chain).before _⟩
  | decl d =>
    rw [RunItem.marks]
    exact ⟨_, rfl, ofNode (.decl d)⟩

theorem Node.lists_children (n : Node) (h : ∀ s, n ≠ .string s) :
    ∃ body, n.marks = [.node n.span body] ∧ Lists body n.children := by
  cases n with
  | name n => exact ⟨_, rfl, none _⟩
  | expr e => exact e.lists_children
  | literal l =>
    cases l with
    | string s =>
      rw [Node.marks, Literal.marks]
      exact ⟨_, rfl, ofNode (.string s)⟩
    | _ =>
      rw [Node.marks, Literal.marks]
      exact ⟨_, rfl, none _⟩
  | string s => exact absurd rfl (h s)
  | object o =>
    cases o
    rw [Node.marks, Object.marks, Field.marksEach_eq_map]
    exact ⟨_, rfl, listed (fun f => ofNode (.field f)) _ _ _ _⟩
  | field f =>
    cases f
    rw [Node.marks, Field.marks]
    exact ⟨_, rfl, ((Lists.key _).behind _).append (ofNode (.expr _))⟩
  | block b =>
    obtain ⟨items, s⟩ := b
    rw [Node.marks, Block.marks, Item.marksAll_eq_flatMap]
    refine ⟨_, rfl, ?_⟩
    have hitems :=
      flatMap (fun _ => []) (fun i => [.seam i.open_]) (fun i => ofNode (.item i)) items
    exact (Lists.before _ hitems).behind _
  | item i =>
    cases i with
    | decl d =>
      rw [Node.marks, Item.marks]
      exact ⟨_, rfl, ofNode (.decl d)⟩
    | expr e =>
      rw [Node.marks, Item.marks]
      exact ⟨_, rfl, ofNode (.expr e)⟩
  | decl d => exact d.lists_children
  | pattern p => exact p.lists_children
  | fieldPattern f =>
    obtain ⟨key, pattern, s⟩ := f
    cases pattern
    · rw [Node.marks, FieldPattern.marks]
      exact ⟨_, rfl, (Lists.name key .any).behind _⟩
    · rw [Node.marks, FieldPattern.marks]
      exact ⟨_, rfl, (Lists.name key .any).append (.skip _ (ofNode (.pattern _)))⟩
  | conditional c =>
    obtain ⟨condition, consequence, alternative, s⟩ := c
    have hfront :=
      ((ofNode (.expr condition)).before [keyword .if_]).append (ofNode (.block consequence))
    rcases alternative with _ | ⟨b⟩ | ⟨c⟩
    · rw [Node.marks, Conditional.marks]
      exact ⟨_, rfl, hfront.behind _⟩
    · rw [Node.marks, Conditional.marks]
      exact ⟨_, rfl, hfront.append (.skip _ (ofNode (.block b)))⟩
    · rw [Node.marks, Conditional.marks]
      exact ⟨_, rfl, hfront.append (.skip _ (ofNode (.conditional c)))⟩
  | choice c =>
    cases c
    rw [Node.marks, Choice.marks, Arm.marksEach_eq_map]
    exact ⟨_, rfl, ((ofNode (.expr _)).before _).append (listed (fun a => ofNode (.arm a)) _ _ _ _)⟩
  | arm a =>
    obtain ⟨pattern, guard, body, s⟩ := a
    cases guard
    · rw [Node.marks, Arm.marks]
      exact ⟨_, rfl, (((ofNode (.pattern pattern)).behind _).behind _).append (ofNode (.expr body))⟩
    · rw [Node.marks, Arm.marks]
      exact ⟨_, rfl,
        (((ofNode (.pattern pattern)).append (.skip _ (ofNode (.expr _)))).behind _).append
        (ofNode (.expr body))⟩
  | run r => exact r.lists_children
  | runItem i => exact i.lists_children
  | variations v =>
    obtain ⟨mode, axes, s⟩ := v
    cases mode
    · rw [Node.marks, Variations.marks]
      exact ⟨_, rfl, .skip _ (ofNode (.object axes))⟩
    · rw [Node.marks, Variations.marks]
      exact ⟨_, rfl, (ofNode (.object axes)).before _⟩

/-- Runs of tokens, in order, stand for the nodes; what is between them is not told. -/
inductive Node.Runs : List Node → List Token → List Token → Prop
  | nil {ts rest : List Token} : Runs [] ts rest
  | skip {ns : List Node} {ts us rest : List Token} (h : Runs ns us rest) : Runs ns (ts ++ us) rest
  | node {n : Node} {ns : List Node} {ts us rest : List Token} (hn : n.Written ts (us ++ rest))
    (h : Runs ns us rest) : Runs (n :: ns) (ts ++ us) rest

theorem Mark.Lists.runs {ms : List Mark} {ns : List Node} (h : Lists ms ns) {ts rest : List Token}
    (hts : SpelledAll true ms ts rest) : Node.Runs ns ts rest := by
  induction h generalizing ts with
  | nil => exact .nil
  | skip m _ ih =>
    obtain ⟨us, vs, rfl, _, hvs⟩ := hts
    exact .skip (ih hvs)
  | node hm _ ih =>
    obtain ⟨us, vs, rfl, hus, hvs⟩ := hts
    exact .node (hm (spelledAll_singleton.2 hus)) (ih hvs)

end ApiScript
