import ApiScript.Proofs.Shape.Reader

set_option autoImplicit false
set_option relaxedAutoImplicit false
set_option synthInstance.maxSize 2000

/-!
Properties of the expressions that stand around others: those with an operator, and those with
something written behind them. All other nodes have such a property by themselves, so that it holds
throughout what is read as soon as the readers of expressions see to it.
-/

namespace ApiScript

open HasNodes (nodes)

/-- An expression with an operator, or with a member access, an index or a call. -/
def Node.isCompound : Node → Bool
  | expr (.pipe _ _ _) | expr (.binary _ _ _ _) | expr (.unary _ _ _) | expr (.call _ _ _)
  | expr (.member _ _ _) | expr (.index _ _ _) => true
  | _ => false

class OfCompounds (P : Node → Prop) : Prop where
  plain {n : Node} : n.isCompound = false → P n

class Throughout {α : Type} [HasNodes α] (P : Node → Prop) (a : α) : Prop where
  holds : ∀ n ∈ nodes a, n.Everywhere P

section Values

variable {α β : Type} [HasNodes α] [HasNodes β] {P : Node → Prop}

instance (a : {a : α // Throughout P a}) : Throughout P a.1 := a.2

instance (u : Unit) : Throughout P u := ⟨List.forall_mem_nil _⟩

instance (b : Bool) : Throughout P b := ⟨List.forall_mem_nil _⟩

instance (s : Span) : Throughout P s := ⟨List.forall_mem_nil _⟩

instance (s : Grammar.State) : Throughout P s := ⟨List.forall_mem_nil _⟩

instance : Throughout P ([] : List α) := ⟨List.forall_mem_nil _⟩

instance (a : α) (as : List α) [ha : Throughout P a] [has : Throughout P as] :
    Throughout P (a :: as) :=
  ⟨List.forall_mem_append.2 ⟨ha.holds, has.holds⟩⟩

instance (as bs : List α) [ha : Throughout P as] [hb : Throughout P bs] :
    Throughout P (as ++ bs) where
  holds := by
    simp only [nodes, List.flatMap_append]
    exact List.forall_mem_append.2 ⟨ha.holds, hb.holds⟩

private theorem throughout_list {as : List α} (h : ∀ a ∈ as, Throughout P a) : Throughout P as where
  holds n hn := by
    obtain ⟨a, ha, hn⟩ := List.mem_flatMap.1 hn
    exact (h a ha).holds n hn

instance : Throughout P (none : Option α) := ⟨List.forall_mem_nil _⟩

instance (a : α) [ha : Throughout P a] : Throughout P (some a) := ⟨by simpa [nodes] using ha.holds⟩

theorem Throughout.of_some {a : α} (h : Throughout P (some a)) : Throughout P a :=
  ⟨by simpa [nodes] using h.holds⟩

instance (a : α) (b : β) [ha : Throughout P a] [hb : Throughout P b] : Throughout P (a, b) :=
  ⟨List.forall_mem_append.2 ⟨ha.holds, hb.holds⟩⟩

instance (p : α × β) [h : Throughout P p] : Throughout P p.1 :=
  ⟨(List.forall_mem_append.1 h.holds).1⟩

/-- A property holds throughout a node if it holds of the node, and throughout all that the node is
made of. -/
theorem Throughout.ofParts {a : α} {n : Node} (parts : β) [hparts : Throughout P parts]
    (ha : nodes a = [n]) (hchildren : n.children = nodes parts) (hn : P n) : Throughout P a where
  holds := by
    rw [ha]
    exact List.forall_mem_singleton.2 (.intro hn (hchildren ▸ hparts.holds))

end Values

section Nodes

variable {P : Node → Prop} [OfCompounds P] (s : Span)

open OfCompounds (plain)

instance (n : Name) : Throughout P n := .ofParts () rfl rfl (plain rfl)

instance (ns : List Name) : Throughout P ns := throughout_list fun _ _ => inferInstance

section Expressions

variable (e : Expr) (es : List Expr) [Throughout P e] [Throughout P es]

instance (l : Literal) [Throughout P l] : Throughout P (Expr.literal l) :=
  .ofParts l rfl rfl (plain rfl)

instance (n : Name) : Throughout P (Expr.name n) := .ofParts n rfl rfl (plain rfl)

instance (n : Name) : Throughout P (Expr.env s n) := .ofParts n rfl rfl (plain rfl)

instance : Throughout P (Expr.paren s e) := .ofParts e rfl rfl (plain rfl)

instance : Throughout P (Expr.array s es) :=
  .ofParts es rfl (by simp [nodes, Node.children, Node.childrenOfExpr, List.map_eq_flatMap])
    (plain rfl)

instance (o : Object) [Throughout P o] : Throughout P (Expr.object o) :=
  .ofParts o rfl rfl (plain rfl)

instance (b : Block) [Throughout P b] : Throughout P (Expr.block b) :=
  .ofParts b rfl rfl (plain rfl)

instance (c : Conditional) [Throughout P c] : Throughout P (Expr.conditional c) :=
  .ofParts c rfl rfl (plain rfl)

instance (c : Choice) [Throughout P c] : Throughout P (Expr.choice c) :=
  .ofParts c rfl rfl (plain rfl)

instance (params : List Name) : Throughout P (Expr.lambda s params e) :=
  .ofParts (params, e) rfl
    (by simp [nodes, Node.children, Node.childrenOfExpr, List.map_eq_flatMap]) (plain rfl)

instance (r : Run) [Throughout P r] : Throughout P (Expr.run r) := .ofParts r rfl rfl (plain rfl)

instance (format : Name) : Throughout P (Expr.emit s (some format) (some es)) :=
  .ofParts (format, es) rfl
    (by simp [nodes, Node.children, Node.childrenOfExpr, Node.ofOption, List.map_eq_flatMap])
    (plain rfl)

instance (format : Name) : Throughout P (Expr.emit s (some format) none) :=
  .ofParts format rfl rfl (plain rfl)

instance : Throughout P (Expr.emit s none none) := .ofParts () rfl rfl (plain rfl)

instance (start stop : Option Literal) (inclusive : Bool) [Throughout P start] [Throughout P stop] :
    Throughout P (Expr.range s start stop inclusive) :=
  .ofParts (start, stop) rfl
    (by simp [nodes, Node.children, Node.childrenOfExpr, Node.ofOption, List.map_eq_flatMap])
    (plain rfl)

end Expressions

section Literals

theorem throughout_literal {l : Literal} (hstring : ∀ s, l ≠ .string s) : Throughout P l := by
  cases l with
  | string s => exact absurd rfl (hstring s)
  | _ => exact .ofParts () rfl rfl (plain rfl)

instance (l : StringLiteral) [Throughout P l] : Throughout P (Literal.string l) :=
  .ofParts l rfl rfl (plain rfl)

instance (quote : Quote) (parts : List StringPart) [Throughout P parts] :
    Throughout P (StringLiteral.mk quote parts s) :=
  .ofParts parts rfl (children_string s quote parts) (plain rfl)

omit [OfCompounds P] in
instance (text : String) : Throughout P (StringPart.text text) := ⟨List.forall_mem_nil _⟩

omit [OfCompounds P] in
instance (e : Expr) [h : Throughout P e] : Throughout P (StringPart.code e) := ⟨h.holds⟩

end Literals

section Braces

variable (e : Expr) [he : Throughout P e]

instance (fields : List Field) [Throughout P fields] : Throughout P (Object.mk fields s) :=
  .ofParts fields rfl (by simp [nodes, Node.children, List.map_eq_flatMap]) (plain rfl)

instance (k : Key) [Throughout P k] : Throughout P (Field.mk k e s) :=
  .ofParts (k, e) rfl rfl (plain rfl)

instance (n : Name) : Throughout P (Key.name n) := ⟨(inferInstance : Throughout P n).holds⟩

omit [OfCompounds P] in
instance (l : StringLiteral) [h : Throughout P l] : Throughout P (Key.string l) := ⟨h.holds⟩

instance (items : List Item) [Throughout P items] : Throughout P (Block.mk items s) :=
  .ofParts items rfl (by simp [nodes, Node.children, List.map_eq_flatMap]) (plain rfl)

omit [OfCompounds P] in
instance (items : List Item) [h : Throughout P items] :
    Throughout P (Program.mk items s) := ⟨h.holds⟩

instance (d : Decl) [Throughout P d] : Throughout P (Item.decl d) := .ofParts d rfl rfl (plain rfl)

instance : Throughout P (Item.expr e) := .ofParts e rfl rfl (plain rfl)

end Braces

section Declarations

variable (n : Name)

instance (protocol method : Name) (target : StringLiteral) (query : Option StringLiteral)
    (metadata : Option Object) [Throughout P target] [Throughout P query] [Throughout P metadata] :
    Throughout P (Decl.operation s n protocol method target query metadata) :=
  .ofParts (n, protocol, method, target, query, metadata) rfl
    (by simp [nodes, Node.children, Node.childrenOfDecl, Node.ofOption, List.map_eq_flatMap])
    (plain rfl)

instance (o : Object) [Throughout P o] : Throughout P (Decl.profile s n o) :=
  .ofParts (n, o) rfl rfl (plain rfl)

instance (params : List Name) (body : Body) [Throughout P body] :
    Throughout P (Decl.function s n params body) :=
  .ofParts (n, params, body) rfl
    (by simp [nodes, Node.children, Node.childrenOfDecl, List.map_eq_flatMap]) (plain rfl)

instance (p : Pattern) (e : Expr) [Throughout P p] [Throughout P e] :
    Throughout P (Decl.binding s p e) :=
  .ofParts (p, e) rfl rfl (plain rfl)

omit [OfCompounds P] in
instance (b : Block) [h : Throughout P b] : Throughout P (Body.block b) := ⟨h.holds⟩

omit [OfCompounds P] in
instance (e : Expr) [h : Throughout P e] : Throughout P (Body.expr e) := ⟨h.holds⟩

instance (path : List Name) : Throughout P (UseTarget.glob path) :=
  ⟨(inferInstance : Throughout P path).holds⟩

instance (path names : List Name) : Throughout P (UseTarget.group path names) :=
  ⟨(inferInstance : Throughout P (path, names)).holds⟩

instance (path : List Name) : Throughout P (UseTarget.path path) :=
  ⟨(inferInstance : Throughout P path).holds⟩

omit [OfCompounds P] in
instance (e : Expr) [h : Throughout P e] : Throughout P (UseTarget.expr e) := ⟨h.holds⟩

instance (target : UseTarget) (body : Option Block) [Throughout P target] [Throughout P body] :
    Throughout P (Decl.use s target body) := by
  refine .ofParts (target, body) rfl ?_ (plain rfl)
  cases target <;>
    simp [nodes, Node.children, Node.childrenOfDecl, Node.ofOption, List.map_eq_flatMap]

end Declarations

section Patterns

instance (n : Name) : Throughout P (Pattern.name n) := .ofParts n rfl rfl (plain rfl)

instance : Throughout P (Pattern.wildcard s) := .ofParts () rfl rfl (plain rfl)

instance (l : Literal) [Throughout P l] : Throughout P (Pattern.literal l) :=
  .ofParts l rfl rfl (plain rfl)

instance (ps : List Pattern) [Throughout P ps] : Throughout P (Pattern.array s ps) :=
  .ofParts ps rfl (by simp [nodes, Node.children, Node.childrenOfPattern, List.map_eq_flatMap])
    (plain rfl)

instance (fields : List FieldPattern) [Throughout P fields] :
    Throughout P (Pattern.object s fields) :=
  .ofParts fields rfl (by simp [nodes, Node.children, Node.childrenOfPattern, List.map_eq_flatMap])
    (plain rfl)

instance (start stop : Option Literal) (inclusive : Bool) [Throughout P start] [Throughout P stop] :
    Throughout P (Pattern.range s start stop inclusive) :=
  .ofParts (start, stop) rfl
    (by simp [nodes, Node.children, Node.childrenOfPattern, Node.ofOption, List.map_eq_flatMap])
    (plain rfl)

instance (n : Name) (p : Option Pattern) [Throughout P p] : Throughout P (FieldPattern.mk n p s) :=
  .ofParts (n, p) rfl (by simp [nodes, Node.children, Node.ofOption, List.map_eq_flatMap])
    (plain rfl)

end Patterns

section Choices

variable (e : Expr) (b : Block) (p : Pattern) [Throughout P e] [Throughout P p]

instance (a : Option Alternative) [Throughout P b] [Throughout P a] :
    Throughout P (Conditional.mk e b a s) :=
  .ofParts (e, b, a) rfl (by simp [nodes, Node.children, Node.ofOption, List.map_eq_flatMap])
    (plain rfl)

omit [OfCompounds P] in
instance [h : Throughout P b] : Throughout P (Alternative.block b) := ⟨h.holds⟩

omit [OfCompounds P] in
instance (c : Conditional) [h : Throughout P c] :
    Throughout P (Alternative.conditional c) := ⟨h.holds⟩

instance (arms : List Arm) [Throughout P arms] : Throughout P (Choice.mk e arms s) :=
  .ofParts (e, arms) rfl (by simp [nodes, Node.children, List.map_eq_flatMap]) (plain rfl)

instance (guard : Option Expr) [Throughout P guard] : Throughout P (Arm.mk p guard e s) :=
  .ofParts (p, guard, e) rfl (by simp [nodes, Node.children, Node.ofOption, List.map_eq_flatMap])
    (plain rfl)

end Choices

section Runs

variable (n : Name) (o : Option Object) [Throughout P o]

instance (v : Option Variations) [Throughout P v] : Throughout P (Run.inline s n o v) :=
  .ofParts (n, o, v) rfl (by simp [nodes, Node.children, Node.ofOption, List.map_eq_flatMap])
    (plain rfl)

instance (items : List RunItem) [Throughout P items] : Throughout P (Run.block s items) :=
  .ofParts items rfl (by simp [nodes, Node.children, List.map_eq_flatMap]) (plain rfl)

instance (mode : VariationMode) (axes : Object) [Throughout P axes] :
    Throughout P (Variations.mk mode axes s) :=
  .ofParts axes rfl rfl (plain rfl)

instance (d : Decl) [Throughout P d] : Throughout P (RunItem.decl d) :=
  .ofParts d rfl rfl (plain rfl)

instance (operation : Name) : Throughout P (RunItem.step s n operation o) :=
  .ofParts (n, operation, o) rfl
    (by simp [nodes, Node.children, Node.ofOption, List.map_eq_flatMap]) (plain rfl)

instance (chain : List Name) : Throughout P (RunItem.path s chain) :=
  .ofParts chain rfl (by simp [nodes, Node.children, List.map_eq_flatMap]) (plain rfl)

end Runs

end Nodes

namespace Grammar

class Brings {α : Type} [HasNodes α] (P : Node → Prop) (p : Parser α) : Prop where
  throughout {s t : State} {a : α} : Reads p s a t → Throughout P a

section Combinators

variable {α β : Type} [HasNodes α] [HasNodes β] {P : Node → Prop}

instance (priority := low) (p : Parser α) [h : ∀ a : α, Throughout P a] : Brings P p :=
  ⟨fun _ => h _⟩

instance (a : α) [h : Throughout P a] : Brings P (pure a : Parser α) where
  throughout hr := by
    cases hr
    exact h

instance (d : Diagnostic) : Brings P (throw d : Parser α) where
  throughout hr := by cases hr

instance (expected : Expectation) : Brings P (unexpected expected : Parser α) where
  throughout hr := by cases hr

instance brings_bind (p : Parser α) (f : α → Parser β) [Brings P p]
    [h : ∀ a : {a : α // Throughout P a}, Brings P (f a.1)] : Brings P (p >>= f) where
  throughout hr := by
    obtain ⟨a, t, ha, hb⟩ := reads_bind.1 hr
    exact (h ⟨a, Brings.throughout ha⟩).throughout hb

omit [HasNodes α] in
theorem Brings.bind {p : Parser α} {f : α → Parser β} (h : ∀ a, Brings P (f a)) :
    Brings P (p >>= f) where
  throughout hr := by
    obtain ⟨a, t, _, hb⟩ := reads_bind.1 hr
    exact (h a).throughout hb

instance (c : Prop) [Decidable c] (p q : Parser α) [Brings P p] [Brings P q] :
    Brings P (if c then p else q) := by
  split <;> assumption

instance (p : Parser α) [Brings P p] : Brings P (outcome p) where
  throughout hr := by
    rcases reads_outcome.1 hr with ⟨a, rfl, ha⟩ | ⟨d, rfl, -⟩
    · exact ⟨(Brings.throughout ha : Throughout P a).holds⟩
    · exact ⟨List.forall_mem_nil _⟩

instance (step : α → Parser (Option α)) [∀ a : {a : α // Throughout P a}, Brings P (step a.1)]
    (bound : Nat) (a : α) [h : Throughout P a] : Brings P (repeatWithin step bound a) := by
  induction bound generalizing a with
  | zero => exact inferInstanceAs (Brings P (pure a))
  | succ bound ih =>
    unfold repeatWithin
    have first : Brings P (step a) :=
      inferInstanceAs (Brings P (step (⟨a, h⟩ : {a // Throughout P a}).1))
    have rest : ∀ r : {r : Option α // Throughout P r}, Brings P (match r.1 with
        | none => pure a
        | some b => repeatWithin step bound b : Parser α) := by
      rintro ⟨_ | b, hr⟩
      · exact inferInstanceAs (Brings P (pure a))
      · have := hr.of_some
        exact ih b
    infer_instance

instance (step : α → Parser (Option α))
    [∀ a : {a : α // Throughout P a}, Brings P (step a.1)] (a : α) [Throughout P a] :
    Brings P (repeated step a) := by
  unfold repeated
  infer_instance

instance (step : Parser (Option α)) [Brings P step] (first : List α) [Throughout P first] :
    Brings P (collect step first) := by
  unfold collect
  have rest (items : {items : List α // Throughout P items})
    (a : {a : Option α // Throughout P a}) :
      Throughout P (a.1.map (items.1 ++ [·])) := by
    obtain ⟨_ | a, ha⟩ := a
    · exact inferInstanceAs (Throughout P none)
    · have := ha.of_some
      exact inferInstanceAs (Throughout P (some (items.1 ++ [a])))
  infer_instance

instance (delimiter : Delimiter) (trailing : Bool) (opener : Span) (item : Parser α)
    [Brings P item] :
    Brings P (delimited delimiter trailing opener item) := by
  unfold delimited
  dsimp only
  infer_instance

instance (surroundings : Surroundings) (atEnd : State → Bool) (statement : Parser α)
    [Brings P statement] :
    Brings P (statements surroundings atEnd statement) := by
  unfold statements
  have rest : ∀ (items : {items : List α // Throughout P items}) (start : Nat)
      (r : {r : Except Diagnostic α // Throughout P r}), Brings P (match r.1 with
      | .ok item => return some (items.1 ++ [item])
      | .error d => do
        modify fun t => (t.report [d]).recover surroundings start
        return some items.1 : Parser (Option (List α))) := by
    rintro items start ⟨d | a, hr⟩
    · infer_instance
    · have : Throughout P a := ⟨hr.holds⟩
      infer_instance
  infer_instance

end Combinators

end Grammar

end ApiScript
