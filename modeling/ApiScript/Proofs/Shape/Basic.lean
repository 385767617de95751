import ApiScript.Numeral.Integer
import ApiScript.Proofs.Ladder.Basic
import ApiScript.Proofs.Lexing.Words
import ApiScript.Text.Bytes
import Mathlib.Data.List.Chain

set_option autoImplicit false
set_option relaxedAutoImplicit false

/-!
The shape of a tree: what the parts of a node have to be like for the node to be written at all, and
what its names and numbers have to do with the source. The types of nodes allow more than that. What
else is asked of the strings of a tree is left open, so that it can be shown of all strings at once.
-/

namespace ApiScript

def Name.IsIdentifier (n : Name) : Prop := Lexeme.IsIdentifier n.text

def Span.Holds (source : String) (span : Span) (text : String) : Prop :=
  Text.slice? span.start span.stop source.toList = some text.toList

/-- A number is spelled as in the source, and its value is that of its spelling. -/
def Literal.Faithful (source : String) : Literal → Prop
  | integer span raw value => span.Holds source raw ∧ Numeral.integer raw span = .ok value
  | float span raw value => span.Holds source raw ∧ Numeral.float raw span = .ok value
  | duration span raw value unit =>
    span.Holds source raw ∧ Numeral.duration raw span = .ok (value, unit)
  | size span raw value unit => span.Holds source raw ∧ Numeral.size raw span = .ok (value, unit)
  | null _ | bool _ _ | string _ | bytes _ _ => True

def StringPart.text? : StringPart → Option String
  | text value => some value
  | code _ => none

/-- A string has no empty text, and of two parts next to each other one is code. In single quotes,
it has one text at most and nothing else. -/
structure StringLiteral.Normal (s : StringLiteral) : Prop where
  nonempty : .text "" ∉ s.parts
  apart : s.parts.IsChain fun a b => a.text? = none ∨ b.text? = none
  single : s.quote = .single → s.parts = [] ∨ ∃ text, s.parts = [.text text]

/-- A path alone has two names at least, since one name alone is an expression. -/
def UseTarget.Formed : UseTarget → Prop
  | glob ns => ns ≠ []
  | group ns names => ns ≠ [] ∧ names ≠ []
  | path ns => 2 ≤ ns.length
  | expr _ => True

namespace Node

def Formed (source : String) : Node → Prop
  | name n => n.span.Holds source n.text
  | literal l => l.Faithful source
  | string s => s.Normal
  | expr (.range _ start stop _) =>
    (start.isSome ∨ stop.isSome) ∧ (∀ l ∈ start, l.integer?.isSome) ∧ ∀ l ∈ stop, l.integer?.isSome
  | expr (.emit _ format args) => args.isSome → format.isSome
  | expr (.object o) => o.fields ≠ []
  | pattern (.range _ start stop _) => start.isSome ∨ stop.isSome
  | pattern (.name n) => n.text ≠ "_"
  | decl (.use _ target _) => target.Formed
  | runItem (.path _ chain) => 2 ≤ chain.length
  | _ => True

/-- The names in a node are identifiers, but for those of steps, which some keywords may be. -/
def Named : Node → Prop
  | runItem (.step _ n operation _) =>
    (n.IsIdentifier ∨ n.text ∈ ["profile", "run", "path"]) ∧ operation.IsIdentifier
  | n => ∀ m, .name m ∈ n.children → m.IsIdentifier

/-- The node can be written, and its names and numbers are those of the source. -/
structure WellFormed (source : String) (n : Node) : Prop where
  formed : n.Formed source
  named : n.Named

end Node

/-- What a tree is held against: the source, all that is reported when it is read, and what is asked
of strings. -/
structure Scope where
  source : String
  log : List Diagnostic
  string : StringLiteral → Prop

namespace Node

def Meets (scope : Scope) : Node → Prop
  | string s => scope.string s
  | _ => True

/-- What is asked of the node, where it may stand where an identifier may. -/
def Suits (scope : Scope) : Node → Prop
  | name n => n.IsIdentifier
  | n => n.Meets scope

private theorem Suits.meets {scope : Scope} {n : Node} (h : n.Suits scope) : n.Meets scope := by
  cases n with
  | name => trivial
  | _ => exact h

/-- The node and all nodes in it are well-formed and as the scope asks, and it may stand
anywhere. -/
structure Sound (scope : Scope) (n : Node) : Prop where
  wellFormed : n.Everywhere (WellFormed scope.source)
  meets : n.Everywhere (Meets scope)
  suits : n.Suits scope

private theorem Sound.intro {scope : Scope} {n : Node} (hformed : n.Formed scope.source)
    (hsuits : n.Suits scope) (hnamed : (∀ m, .name m ∈ n.children → m.IsIdentifier) → n.Named)
    (h : ∀ c ∈ n.children, c.Sound scope) :
    n.Sound scope where
  wellFormed := .intro ⟨hformed, hnamed fun _ hm => (h _ hm).suits⟩ fun c hc => (h c hc).wellFormed
  meets := .intro hsuits.meets fun c hc => (h c hc).meets
  suits := hsuits

end Node

class HasNodes (α : Type) where
  nodes : α → List Node

open HasNodes (nodes)

namespace HasNodes

variable {α β : Type}

instance [HasNodes α] : HasNodes (List α) := ⟨fun as => as.flatMap nodes⟩
instance [HasNodes α] : HasNodes (Option α) := ⟨fun a => a.toList.flatMap nodes⟩
instance [HasNodes α] [HasNodes β] : HasNodes (α × β) := ⟨fun p => nodes p.1 ++ nodes p.2⟩
instance : HasNodes Unit := ⟨fun _ => []⟩
instance : HasNodes Bool := ⟨fun _ => []⟩
instance : HasNodes Span := ⟨fun _ => []⟩
instance : HasNodes Name := ⟨fun n => [.name n]⟩
instance : HasNodes Expr := ⟨fun e => [.expr e]⟩
instance : HasNodes Literal := ⟨fun l => [.literal l]⟩
instance : HasNodes StringLiteral := ⟨fun s => [.string s]⟩
instance : HasNodes StringPart := ⟨fun
  | .text _ => []
  | .code e => [.expr e]⟩
instance : HasNodes Object := ⟨fun o => [.object o]⟩
instance : HasNodes Field := ⟨fun f => [.field f]⟩
instance : HasNodes Key := ⟨fun k => [.ofKey k]⟩
instance : HasNodes Block := ⟨fun b => [.block b]⟩
instance : HasNodes Item := ⟨fun i => [.item i]⟩
instance : HasNodes Decl := ⟨fun d => [.decl d]⟩
instance : HasNodes Body := ⟨fun b => [.ofBody b]⟩
instance : HasNodes UseTarget := ⟨fun
  | .glob path | .path path => nodes path
  | .group path names => nodes path ++ nodes names
  | .expr e => [.expr e]⟩
instance : HasNodes Pattern := ⟨fun p => [.pattern p]⟩
instance : HasNodes FieldPattern := ⟨fun f => [.fieldPattern f]⟩
instance : HasNodes Conditional := ⟨fun c => [.conditional c]⟩
instance : HasNodes Alternative := ⟨fun a => [.ofAlternative a]⟩
instance : HasNodes Choice := ⟨fun c => [.choice c]⟩
instance : HasNodes Arm := ⟨fun a => [.arm a]⟩
instance : HasNodes Run := ⟨fun r => [.run r]⟩
instance : HasNodes RunItem := ⟨fun i => [.runItem i]⟩
instance : HasNodes Variations := ⟨fun v => [.variations v]⟩
instance : HasNodes Program := ⟨fun p => nodes p.items⟩

end HasNodes

class Fits {α : Type} [HasNodes α] (scope : Scope) (a : α) : Prop where
  sound : ∀ n ∈ nodes a, n.Sound scope

section Values

variable {α β : Type} [HasNodes α] [HasNodes β] {scope : Scope}

instance (a : {a : α // Fits scope a}) : Fits scope a.1 := a.2

instance (u : Unit) : Fits scope u := ⟨by simp [nodes]⟩

instance (b : Bool) : Fits scope b := ⟨by simp [nodes]⟩

instance (s : Span) : Fits scope s := ⟨by simp [nodes]⟩

instance : Fits scope ([] : List α) := ⟨by simp [nodes]⟩

instance (a : α) (as : List α) [ha : Fits scope a] [has : Fits scope as] : Fits scope (a :: as) :=
  ⟨List.forall_mem_append.2 ⟨ha.sound, has.sound⟩⟩

instance (as bs : List α) [ha : Fits scope as] [hb : Fits scope bs] : Fits scope (as ++ bs) where
  sound := by
    simp only [nodes, List.flatMap_append]
    exact List.forall_mem_append.2 ⟨ha.sound, hb.sound⟩

instance : Fits scope (none : Option α) := ⟨by simp [nodes]⟩

instance (a : α) [ha : Fits scope a] : Fits scope (some a) := ⟨by simpa [nodes] using ha.sound⟩

instance (a : α) (b : β) [ha : Fits scope a] [hb : Fits scope b] : Fits scope (a, b) :=
  ⟨List.forall_mem_append.2 ⟨ha.sound, hb.sound⟩⟩

instance (p : α × β) [h : Fits scope p] : Fits scope p.1 := ⟨(List.forall_mem_append.1 h.sound).1⟩

/-- A node fits if what it is made of does. -/
theorem Fits.ofParts {a : α} {n : Node} (parts : β) [hparts : Fits scope parts] (ha : nodes a = [n])
    (hchildren : n.children = nodes parts) (hformed : n.Formed scope.source)
    (hsuits : n.Suits scope) (hnamed : (∀ m, .name m ∈ n.children → m.IsIdentifier) → n.Named) :
    Fits scope a where
  sound := by
    rw [ha]
    exact List.forall_mem_singleton.2 (.intro hformed hsuits hnamed (hchildren ▸ hparts.sound))

end Values

section Nodes

variable {scope : Scope} (s : Span)

section Expressions

variable (e e' : Expr) (es : List Expr) [Fits scope e] [Fits scope e'] [Fits scope es]

instance : Fits scope (Expr.pipe s e e') := .ofParts (e, e') rfl rfl trivial trivial id

instance (op : BinaryOp) : Fits scope (Expr.binary s op e e') :=
  .ofParts (e, e') rfl rfl trivial trivial id

instance (op : UnaryOp) : Fits scope (Expr.unary s op e) := .ofParts e rfl rfl trivial trivial id

instance : Fits scope (Expr.call s e es) :=
  .ofParts (e, es) rfl (by simp [nodes, Node.children, Node.childrenOfExpr, List.map_eq_flatMap])
    trivial trivial id

instance (n : Name) [Fits scope n] : Fits scope (Expr.member s e n) :=
  .ofParts (e, n) rfl rfl trivial trivial id

instance : Fits scope (Expr.index s e e') := .ofParts (e, e') rfl rfl trivial trivial id

instance (l : Literal) [Fits scope l] : Fits scope (Expr.literal l) :=
  .ofParts l rfl rfl trivial trivial id

instance (n : Name) [Fits scope n] : Fits scope (Expr.name n) :=
  .ofParts n rfl rfl trivial trivial id

instance (n : Name) [Fits scope n] : Fits scope (Expr.env s n) :=
  .ofParts n rfl rfl trivial trivial id

instance : Fits scope (Expr.paren s e) := .ofParts e rfl rfl trivial trivial id

instance : Fits scope (Expr.array s es) :=
  .ofParts es rfl (by simp [nodes, Node.children, Node.childrenOfExpr, List.map_eq_flatMap]) trivial
    trivial id

instance (b : Block) [Fits scope b] : Fits scope (Expr.block b) :=
  .ofParts b rfl rfl trivial trivial id

instance (c : Conditional) [Fits scope c] : Fits scope (Expr.conditional c) :=
  .ofParts c rfl rfl trivial trivial id

instance (c : Choice) [Fits scope c] : Fits scope (Expr.choice c) :=
  .ofParts c rfl rfl trivial trivial id

instance (params : List Name) [Fits scope params] : Fits scope (Expr.lambda s params e) :=
  .ofParts (params, e) rfl
    (by simp [nodes, Node.children, Node.childrenOfExpr, List.map_eq_flatMap]) trivial trivial id

instance (r : Run) [Fits scope r] : Fits scope (Expr.run r) := .ofParts r rfl rfl trivial trivial id

instance (format : Option Name) [Fits scope format] : Fits scope (Expr.emit s format none) :=
  .ofParts format rfl
    (by simp [nodes, Node.children, Node.childrenOfExpr, Node.ofOption, List.map_eq_flatMap])
    (fun h => absurd h Bool.false_ne_true) trivial id

instance (format : Name) [Fits scope format] : Fits scope (Expr.emit s (some format) (some es)) :=
  .ofParts (format, es) rfl
    (by simp [nodes, Node.children, Node.childrenOfExpr, Node.ofOption, List.map_eq_flatMap])
    (fun _ => rfl) trivial id

theorem fits_object {o : Object} [Fits scope o] (h : o.fields ≠ []) : Fits scope (Expr.object o) :=
  .ofParts o rfl rfl h trivial id

theorem fits_range {start stop : Option Literal} {inclusive : Bool} [Fits scope start]
    [Fits scope stop] (hbound : start.isSome ∨ stop.isSome)
    (hstart : ∀ l ∈ start, l.integer?.isSome) (hstop : ∀ l ∈ stop, l.integer?.isSome) :
    Fits scope (Expr.range s start stop inclusive) :=
  .ofParts (start, stop) rfl
    (by simp [nodes, Node.children, Node.childrenOfExpr, Node.ofOption, List.map_eq_flatMap])
    ⟨hbound, hstart, hstop⟩ trivial id

end Expressions

section Literals

theorem fits_literal {l : Literal} (h : l.Faithful scope.source) (hstring : ∀ s, l ≠ .string s) :
    Fits scope l := by
  refine .ofParts () rfl ?_ h trivial id
  cases l with
  | string s => exact absurd rfl (hstring s)
  | _ => rfl

instance (l : StringLiteral) [Fits scope l] : Fits scope (Literal.string l) :=
  .ofParts l rfl rfl trivial trivial id

instance (text : String) : Fits scope (StringPart.text text) := ⟨List.forall_mem_nil _⟩

instance (e : Expr) [h : Fits scope e] : Fits scope (StringPart.code e) := ⟨h.sound⟩

theorem children_string (quote : Quote) (parts : List StringPart) :
    (Node.string ⟨quote, parts, s⟩).children = nodes parts := by
  induction parts with
  | nil => rfl
  | cons part parts ih =>
    cases part with
    | text text => exact ih
    | code e => exact congrArg (Node.expr e :: ·) ih

theorem fits_string {quote : Quote} {parts : List StringPart} [Fits scope parts]
    (h : StringLiteral.Normal ⟨quote, parts, s⟩) (hscope : scope.string ⟨quote, parts, s⟩) :
    Fits scope (StringLiteral.mk quote parts s) :=
  .ofParts parts rfl (children_string s quote parts) h hscope id

end Literals

section Braces

variable (o : Object) (e : Expr) [Fits scope o] [Fits scope e]

instance (fields : List Field) [Fits scope fields] : Fits scope (Object.mk fields s) :=
  .ofParts fields rfl (by simp [nodes, Node.children, List.map_eq_flatMap]) trivial trivial id

instance (k : Key) [Fits scope k] : Fits scope (Field.mk k e s) :=
  .ofParts (k, e) rfl rfl trivial trivial id

instance (n : Name) [h : Fits scope n] : Fits scope (Key.name n) := ⟨h.sound⟩

instance (l : StringLiteral) [h : Fits scope l] : Fits scope (Key.string l) := ⟨h.sound⟩

instance (items : List Item) [Fits scope items] : Fits scope (Block.mk items s) :=
  .ofParts items rfl (by simp [nodes, Node.children, List.map_eq_flatMap]) trivial trivial id

instance (items : List Item) [h : Fits scope items] : Fits scope (Program.mk items s) := ⟨h.sound⟩

instance (d : Decl) [Fits scope d] : Fits scope (Item.decl d) :=
  .ofParts d rfl rfl trivial trivial id

instance : Fits scope (Item.expr e) := .ofParts e rfl rfl trivial trivial id

end Braces

section Declarations

variable (n : Name) [Fits scope n]

instance (protocol method : Name) (target : StringLiteral) (query : Option StringLiteral)
    (metadata : Option Object) [Fits scope protocol] [Fits scope method] [Fits scope target]
    [Fits scope query] [Fits scope metadata] :
    Fits scope (Decl.operation s n protocol method target query metadata) :=
  .ofParts (n, protocol, method, target, query, metadata) rfl
    (by simp [nodes, Node.children, Node.childrenOfDecl, Node.ofOption, List.map_eq_flatMap])
      trivial trivial id

instance (o : Object) [Fits scope o] : Fits scope (Decl.profile s n o) :=
  .ofParts (n, o) rfl rfl trivial trivial id

instance (params : List Name) (body : Body) [Fits scope params] [Fits scope body] :
    Fits scope (Decl.function s n params body) :=
  .ofParts (n, params, body) rfl
    (by simp [nodes, Node.children, Node.childrenOfDecl, List.map_eq_flatMap]) trivial
    trivial id

instance (p : Pattern) (e : Expr) [Fits scope p] [Fits scope e] : Fits scope (Decl.binding s p e) :=
  .ofParts (p, e) rfl rfl trivial trivial id

instance (b : Block) [h : Fits scope b] : Fits scope (Body.block b) := ⟨h.sound⟩

instance (e : Expr) [h : Fits scope e] : Fits scope (Body.expr e) := ⟨h.sound⟩

instance (path : List Name) [h : Fits scope path] : Fits scope (UseTarget.glob path) := ⟨h.sound⟩

instance (path names : List Name) [hpath : Fits scope path] [hnames : Fits scope names] :
    Fits scope (UseTarget.group path names) :=
  ⟨List.forall_mem_append.2 ⟨hpath.sound, hnames.sound⟩⟩

instance (path : List Name) [h : Fits scope path] : Fits scope (UseTarget.path path) := ⟨h.sound⟩

instance (e : Expr) [h : Fits scope e] : Fits scope (UseTarget.expr e) := ⟨h.sound⟩

theorem fits_use {target : UseTarget} (body : Option Block) [Fits scope target] [Fits scope body]
    (h : target.Formed) : Fits scope (Decl.use s target body) := by
  refine .ofParts (target, body) rfl ?_ h trivial id
  cases target <;>
    simp [nodes, Node.children, Node.childrenOfDecl, Node.ofOption, List.map_eq_flatMap]

end Declarations

section Patterns

variable (p : Pattern) [Fits scope p]

theorem fits_pattern_name {n : Name} [Fits scope n] (h : n.text ≠ "_") :
    Fits scope (Pattern.name n) :=
  .ofParts n rfl rfl h trivial id

instance : Fits scope (Pattern.wildcard s) := .ofParts () rfl rfl trivial trivial id

instance (l : Literal) [Fits scope l] : Fits scope (Pattern.literal l) :=
  .ofParts l rfl rfl trivial trivial id

instance (ps : List Pattern) [Fits scope ps] : Fits scope (Pattern.array s ps) :=
  .ofParts ps rfl (by simp [nodes, Node.children, Node.childrenOfPattern, List.map_eq_flatMap])
    trivial trivial id

instance (fields : List FieldPattern) [Fits scope fields] : Fits scope (Pattern.object s fields) :=
  .ofParts fields rfl (by simp [nodes, Node.children, Node.childrenOfPattern, List.map_eq_flatMap])
    trivial trivial id

instance (start : Literal) (stop : Option Literal) (inclusive : Bool) [Fits scope start]
    [Fits scope stop] :
    Fits scope (Pattern.range s (some start) stop inclusive) :=
  .ofParts (start, stop) rfl
    (by simp [nodes, Node.children, Node.childrenOfPattern, Node.ofOption, List.map_eq_flatMap])
    (.inl rfl) trivial id

instance (stop : Literal) (inclusive : Bool) [Fits scope stop] :
    Fits scope (Pattern.range s none (some stop) inclusive) :=
  .ofParts stop rfl rfl (.inr rfl) trivial id

instance (n : Name) (p : Option Pattern) [Fits scope n] [Fits scope p] :
    Fits scope (FieldPattern.mk n p s) :=
  .ofParts (n, p) rfl (by simp [nodes, Node.children, Node.ofOption, List.map_eq_flatMap]) trivial
    trivial id

end Patterns

section Choices

variable (e : Expr) (b : Block) (p : Pattern) [Fits scope e] [Fits scope p]

instance (a : Option Alternative) [Fits scope b] [Fits scope a] :
    Fits scope (Conditional.mk e b a s) :=
  .ofParts (e, b, a) rfl (by simp [nodes, Node.children, Node.ofOption, List.map_eq_flatMap])
    trivial trivial id

instance [h : Fits scope b] : Fits scope (Alternative.block b) := ⟨h.sound⟩

instance (c : Conditional) [h : Fits scope c] : Fits scope (Alternative.conditional c) := ⟨h.sound⟩

instance (arms : List Arm) [Fits scope arms] : Fits scope (Choice.mk e arms s) :=
  .ofParts (e, arms) rfl (by simp [nodes, Node.children, List.map_eq_flatMap]) trivial trivial id

instance (guard : Option Expr) [Fits scope guard] : Fits scope (Arm.mk p guard e s) :=
  .ofParts (p, guard, e) rfl (by simp [nodes, Node.children, Node.ofOption, List.map_eq_flatMap])
    trivial trivial id

end Choices

section Runs

variable (o : Option Object) [Fits scope o]

instance (n : Name) (v : Option Variations) [Fits scope n] [Fits scope v] :
    Fits scope (Run.inline s n o v) :=
  .ofParts (n, o, v) rfl (by simp [nodes, Node.children, Node.ofOption, List.map_eq_flatMap])
    trivial trivial id

instance (items : List RunItem) [Fits scope items] : Fits scope (Run.block s items) :=
  .ofParts items rfl (by simp [nodes, Node.children, List.map_eq_flatMap]) trivial trivial id

instance (mode : VariationMode) (axes : Object) [Fits scope axes] :
    Fits scope (Variations.mk mode axes s) :=
  .ofParts axes rfl rfl trivial trivial id

instance (d : Decl) [Fits scope d] : Fits scope (RunItem.decl d) :=
  .ofParts d rfl rfl trivial trivial id

theorem fits_path {chain : List Name} [Fits scope chain] (h : 2 ≤ chain.length) :
    Fits scope (RunItem.path s chain) :=
  .ofParts chain rfl (by simp [nodes, Node.children, List.map_eq_flatMap]) h trivial id

theorem fits_step {n operation : Name} [Fits scope operation]
    (hname : n.span.Holds scope.source n.text)
    (hn : n.IsIdentifier ∨ n.text ∈ ["profile", "run", "path"]) :
    Fits scope (RunItem.step s n operation o) where
  sound := by
    have hparts : Fits scope (operation, o) := inferInstance
    have hchildren :
        (Node.runItem (.step s n operation o)).children = .name n :: nodes (operation, o) := by
      simp [nodes, Node.children, Node.ofOption, List.map_eq_flatMap]
    have hoperation := (hparts.sound (.name operation) List.mem_cons_self).suits
    have hwellFormed : (Node.name n).Everywhere (Node.WellFormed scope.source) :=
      .intro ⟨hname, fun _ hm => absurd hm List.not_mem_nil⟩ fun _ hm => absurd hm List.not_mem_nil
    have hmeets : (Node.name n).Everywhere (Node.Meets scope) :=
      .intro trivial fun _ hm => absurd hm List.not_mem_nil
    refine List.forall_mem_singleton.2
      ⟨.intro ⟨trivial, hn, hoperation⟩ ?_, .intro trivial ?_, trivial⟩ <;>
    rw [hchildren]
    · exact List.forall_mem_cons.2 ⟨hwellFormed, fun c hc => (hparts.sound c hc).wellFormed⟩
    · exact List.forall_mem_cons.2 ⟨hmeets, fun c hc => (hparts.sound c hc).meets⟩

end Runs

end Nodes

end ApiScript
