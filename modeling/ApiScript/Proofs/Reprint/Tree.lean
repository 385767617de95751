import ApiScript.Proofs.Lexing.Interpolated
import ApiScript.Proofs.Shape.Basic
import ApiScript.Proofs.Spelling.Tree
import ApiScript.Tree.Layout

set_option autoImplicit false
set_option relaxedAutoImplicit false

/-!
Trees that are read back from what they are written as. No parentheses are added where a tree is
written, so that what is written against a part of it, or on the line behind it, may be read as part
of that.
-/

namespace ApiScript

open Piece

def Literal.isSignable : Literal → Bool
  | integer _ _ _ | float _ _ _ => true
  | _ => false

def Literal.isUnsigned : Literal → Bool
  | integer _ raw _ | float _ raw _ => raw.toList.head? != some '-'
  | _ => false

namespace Expr

def lead : Expr → Expr
  | pipe _ left _ | binary _ _ left _ => left.lead
  | call _ e _ | member _ e _ | index _ e _ => e.lead
  | e => e

def tail : Expr → Expr
  | pipe _ _ right | binary _ _ _ right => right.tail
  | unary _ _ e | lambda _ _ e => e.tail
  | e => e

/-- A minus sign written against the expression is read as the sign of a number. -/
def takesSign : Expr → Bool
  | literal l | range _ (some l) _ _ => l.isUnsigned
  | _ => false

/-- The symbol is read as part of the expression if it is written against it. -/
def takes : Expr → Symbol → Bool
  | emit _ none none, .dot | emit _ none none, .leftParen | emit _ (some _) none, .leftParen => true
  | _, _ => false

/-- A lambda that is written with two bars against each other. -/
def isConstant : Expr → Bool
  | lambda _ [] _ => true
  | _ => false

/-- A literal that a minus sign is kept apart from. -/
def isSignable : Expr → Bool
  | literal l => l.isSignable
  | _ => false

/-- What is written against a part of the expression is not read as part of that: neither a minus
sign as that of a number, unless it is kept apart, nor what is written behind an emission. -/
def Reprintable : Expr → Prop
  | unary _ .neg e => e.isSignable = true ∨ e.lead.takesSign = false
  | call _ e _ => e.tail.takes .leftParen = false
  | member _ e _ => e.tail.takes .dot = false
  | _ => True

end Expr

def Item.opensBars : Item → Bool
  | .expr e => e.lead.isConstant
  | .decl _ => false

/-- The second statement is not read as part of the first one. -/
def Item.Apart (i j : Item) : Prop := i.open_ = true → j.opensBars = false

namespace Node

/-- Bytes are not taken to end elsewhere where they are embedded themselves. -/
def Embeddable : Node → Prop
  | literal (.bytes _ value) => ¬(Quoted.bytesLexeme value).Misread
  | _ => True

/-- What is written of the node is not read as something else, whatever the nodes in it are. -/
def Reprintable : Node → Prop
  | expr e => e.Reprintable
  | string s => ∀ e, .code e ∈ s.parts → (expr e).Everywhere Embeddable
  | block b => b.items.IsChain Item.Apart
  | _ => True

/-- What the node is like where it is read back, in code that is embedded or is not. -/
structure Fine (code : Bool) (n : Node) : Prop where
  reprintable : n.Reprintable
  normal : ∀ s, n = string s → s.Normal
  embeddable : code = true → n.Embeddable

abbrev Good (code : Bool) (n : Node) : Prop := n.Everywhere (Fine code)

variable {P Q : Node → Prop} {n : Node}

theorem Everywhere.imp (h : n.Everywhere P) (himp : ∀ n, P n → Q n) : n.Everywhere Q := by
  induction h with
  | intro here _ ih => exact .intro (himp _ here) ih

theorem Everywhere.and (h : n.Everywhere P) (k : n.Everywhere Q) :
    n.Everywhere fun n => P n ∧ Q n := by
  induction h with
  | intro here _ ih => exact .intro ⟨here, k.here⟩ fun c hc => ih c hc (k.children c hc)

theorem mem_ofOption {α : Type} {make : α → Node} {part : Option α} {a : α} (h : a ∈ part) :
    make a ∈ ofOption make part := List.mem_map_of_mem (Option.mem_toList.2 h)

theorem Good.code {code : Bool} {s : StringLiteral} {e : Expr} (h : Good code (string s))
    (he : .code e ∈ s.parts) :
    Good true (expr e) := by
  have hchild : expr e ∈ (string s).children := List.mem_filterMap.2 ⟨_, he, rfl⟩
  refine ((h.children _ hchild).and (h.here.reprintable e he)).imp fun n hn => ?_
  exact ⟨hn.1.reprintable, hn.1.normal, fun _ => hn.2⟩

end Node

structure Program.Reprintable (p : Program) : Prop where
  apart : p.items.IsChain Item.Apart
  everywhere : p.Everywhere Node.Reprintable

section Checks

instance Expr.Reprintable.decide : (e : Expr) → Decidable e.Reprintable
  | .unary _ .neg e => inferInstanceAs (Decidable (e.isSignable = true ∨ e.lead.takesSign = false))
  | .unary _ .not _ => .isTrue trivial
  | .call _ e _ => inferInstanceAs (Decidable (e.tail.takes .leftParen = false))
  | .member _ e _ => inferInstanceAs (Decidable (e.tail.takes .dot = false))
  | .pipe .. | .binary .. | .index .. | .literal .. | .name .. | .env .. | .paren .. | .array
    .. | .object .. | .block ..
  | .conditional .. | .choice .. | .run .. | .emit .. | .lambda .. | .range .. => .isTrue trivial

instance (i j : Item) : Decidable (i.Apart j) :=
  inferInstanceAs (Decidable (i.open_ = true → j.opensBars = false))

namespace Node

def checks (check : Node → Bool) : Nat → Node → Bool
  | 0, _ => false
  | depth + 1, n => check n && n.children.all (checks check depth)

private theorem Everywhere.of_checks {P : Node → Prop} {check : Node → Bool} {depth : Nat}
    {n : Node} (hcheck : ∀ n, check n = true → P n) (h : n.checks check depth = true) :
    n.Everywhere P := by
  induction depth generalizing n with
  | zero => cases h
  | succ depth ih =>
    obtain ⟨here, below⟩ := Bool.and_eq_true_iff.1 h
    exact .intro (hcheck n here) fun c hc => ih (List.all_eq_true.1 below c hc)

def isEmbeddable : Node → Bool
  | literal (.bytes _ value) => decide ¬(Quoted.bytesLexeme value).Misread
  | _ => true

private theorem Embeddable.of_check (n : Node) (h : n.isEmbeddable = true) : n.Embeddable := by
  unfold Embeddable
  split
  · exact of_decide_eq_true h
  · trivial

def isReprintable (depth : Nat) : Node → Bool
  | expr e => decide e.Reprintable
  | string s => (string s).children.all (checks isEmbeddable depth)
  | block b => decide (b.items.IsChain Item.Apart)
  | _ => true

private theorem Reprintable.of_check (depth : Nat) (n : Node) (h : n.isReprintable depth = true) :
    n.Reprintable := by
  unfold Reprintable
  split
  · exact of_decide_eq_true h
  · intro e he
    exact .of_checks Embeddable.of_check
      (List.all_eq_true.1 h _ (List.mem_filterMap.2 ⟨_, he, rfl⟩))
  · exact of_decide_eq_true h
  · trivial

end Node

def Program.isReprintable (depth : Nat) (p : Program) : Bool :=
  decide (p.items.IsChain Item.Apart) && p.items.all fun i =>
    (Node.item i).checks (Node.isReprintable depth) depth

theorem Program.Reprintable.of_check (depth : Nat) {p : Program}
    (h : p.isReprintable depth = true) :
    p.Reprintable := by
  obtain ⟨hitems, hall⟩ := Bool.and_eq_true_iff.1 h
  exact ⟨of_decide_eq_true hitems, fun i hi => .of_checks (Node.Reprintable.of_check depth)
    (List.all_eq_true.1 hall i hi)⟩

end Checks

section Layout

theorem Expr.layout_unary_of_not (indent : Nat) (s : Span) (op : UnaryOp) {e : Expr}
    (he : e.isSignable = false) :
    (unary s op e).layout indent = Piece.lexeme op.lexeme :: e.layout indent := by
  cases op with
  | not => rw [layout.eq_def]
  | neg =>
    cases e with
    | literal l =>
      cases l with
      | integer | float => cases he
      | _ => rw [layout.eq_def]
    | _ => rw [layout.eq_def]

theorem Expr.layout_neg_of_isSignable (indent : Nat) (s : Span) {e : Expr}
    (he : e.isSignable = true) :
    (unary s .neg e).layout indent = Piece.symbol .minus :: Piece.space :: e.layout indent := by
  cases e with
  | literal l =>
    cases l with
    | integer | float =>
      rw [layout, layout]
      rfl
    | _ => cases he
  | _ => cases he

structure Expr.LedBy (e : Expr) (l : Lexeme) (ps : List Piece) : Prop where
  signed : l.isSignable = true → e.takesSign = true
  bars : l = .symbol .bar → ps.head? = some (symbol .bar) → e.isConstant = true
  joined : l ≠ .symbol .or

private theorem Expr.LedBy.plain {e : Expr} {l : Lexeme} {ps : List Piece}
    (hsigned : l.isSignable = false) (hbar : l ≠ .symbol .bar) (hor : l ≠ .symbol .or) :
    e.LedBy l ps where
  signed h := absurd (hsigned.symm.trans h) Bool.false_ne_true
  bars h := absurd h hbar
  joined := hor

theorem Name.lexeme_ne_symbol (n : Name) (s : Symbol) : n.lexeme ≠ .symbol s := by
  unfold lexeme Lexeme.ofWord
  split <;> nofun

private theorem Literal.layout_head (indent : Nat) (l : Literal) (qs : List Piece) : ∃ l' ps,
    l.layout indent ++ qs = Piece.lexeme l' :: ps ∧ (l'.isSignable = true → l.isUnsigned = true) ∧
      l' ≠ .symbol .bar ∧ l' ≠ .symbol .or := by
  have hnumber (kind : NumberClass) (raw : String) :
      ∃ l' ps, number kind raw ++ qs = Piece.lexeme l' :: ps ∧
        (l'.isSignable = true → raw.toList.head? ≠ some '-' ∧ kind ∉ [.duration, .size]) ∧
        l' ≠ .symbol .bar ∧ l' ≠ .symbol .or := by
    unfold number
    split
    · exact ⟨_, _, rfl, nofun, nofun, nofun⟩
    · rename_i hsign
      refine ⟨_, _, rfl, fun h => ⟨fun hhead => ?_, ?_⟩, nofun, nofun⟩
      · obtain ⟨cs, hcs⟩ := List.head?_eq_some_iff.1 hhead
        exact hsign cs hcs
      · cases kind with
        | duration | size => cases h
        | integer | float => decide
  cases l with
  | null | bool | bytes =>
    rw [layout]
    exact ⟨_, _, rfl, nofun, nofun, nofun⟩
  | integer span raw value | float span raw value =>
    obtain ⟨l, ps, hps, hsigned, hplain⟩ := hnumber _ raw
    rw [layout]
    exact ⟨l, ps, hps, fun h => bne_iff_ne.2 (hsigned h).1, hplain⟩
  | duration span raw value unit | size span raw value unit =>
    obtain ⟨l, ps, hps, hsigned, hplain⟩ := hnumber _ raw
    rw [layout]
    exact ⟨l, ps, hps, fun h => absurd (by decide) (hsigned h).2, hplain⟩
  | string string =>
    obtain ⟨quote, parts, span⟩ := string
    rw [layout, StringLiteral.layout]
    exact ⟨_, _, rfl, by cases quote <;> nofun, by cases quote <;> nofun, by cases quote <;> nofun⟩

theorem Expr.layout_head (indent : Nat) (e : Expr) (qs : List Piece) :
    ∃ l ps, e.layout indent ++ qs = Piece.lexeme l :: ps ∧ e.lead.LedBy l ps := by
  fun_induction Expr.lead e generalizing qs with
  | case1 s left right ih | case2 s op left right ih =>
    rw [layout, List.append_assoc, List.append_assoc]
    exact ih _
  | case3 s e args ih | case5 s e index ih =>
    rw [layout, List.append_assoc, List.append_assoc, List.append_assoc]
    exact ih _
  | case4 s e field ih =>
    rw [layout, List.append_assoc]
    exact ih _
  | case6 e hpipe hbinary hcall hmember hindex =>
    cases e with
    | pipe s left right => exact (hpipe s left right rfl).elim
    | binary s op left right => exact (hbinary s op left right rfl).elim
    | call s e args => exact (hcall s e args rfl).elim
    | member s e field => exact (hmember s e field rfl).elim
    | index s e index => exact (hindex s e index rfl).elim
    | unary s op e =>
      cases op with
      | not =>
        rw [layout.eq_def]
        exact ⟨_, _, rfl, .plain rfl nofun nofun⟩
      | neg =>
        cases he : e.isSignable with
        | true =>
          rw [layout_neg_of_isSignable indent s he]
          exact ⟨_, _, rfl, .plain rfl nofun nofun⟩
        | false =>
          rw [layout_unary_of_not indent s .neg he]
          exact ⟨_, _, rfl, .plain rfl nofun nofun⟩
    | literal l =>
      obtain ⟨l', ps, hps, hsigned, hbar, hor⟩ := l.layout_head indent qs
      rw [layout]
      exact ⟨l', ps, hps, hsigned, fun h => absurd h hbar, hor⟩
    | name n =>
      rw [layout, Piece.name]
      refine ⟨_, _, rfl, .plain ?_ (n.lexeme_ne_symbol _) (n.lexeme_ne_symbol _)⟩
      unfold Name.lexeme Lexeme.ofWord
      split <;> rfl
    | env | paren | array =>
      rw [layout]
      exact ⟨_, _, rfl, .plain rfl nofun nofun⟩
    | object o =>
      obtain ⟨fields, s⟩ := o
      rw [layout, Object.layout]
      exact ⟨_, _, rfl, .plain rfl nofun nofun⟩
    | block b =>
      obtain ⟨items, s⟩ := b
      cases items <;>
      · rw [layout, Block.layout]
        exact ⟨_, _, rfl, .plain rfl nofun nofun⟩
    | conditional c =>
      obtain ⟨condition, consequence, alternative, s⟩ := c
      rw [layout, Conditional.layout.eq_def]
      exact ⟨_, _, rfl, .plain rfl nofun nofun⟩
    | choice c =>
      obtain ⟨subject, arms, s⟩ := c
      rw [layout, Choice.layout]
      exact ⟨_, _, rfl, .plain rfl nofun nofun⟩
    | run r =>
      cases r with
      | inline s target args variations =>
        rw [layout, Run.layout.eq_def]
        exact ⟨_, _, rfl, .plain rfl nofun nofun⟩
      | block s items =>
        cases items <;>
        · rw [layout, Run.layout]
          exact ⟨_, _, rfl, .plain rfl nofun nofun⟩
    | emit s format args =>
      rw [layout.eq_def]
      cases format <;> cases args <;> exact ⟨_, _, rfl, .plain rfl nofun nofun⟩
    | lambda s params body =>
      rw [layout]
      cases params with
      | nil => exact ⟨_, _, rfl, nofun, fun _ _ => rfl, nofun⟩
      | cons n ns =>
        obtain ⟨ps, hnames⟩ :
            ∃ ps, names [symbol .comma, space] (n :: ns) = Piece.name n :: ps := by
          cases ns <;> exact ⟨_, rfl⟩
        rw [hnames]
        exact ⟨_, _, rfl, nofun, fun _ hbar => absurd (Piece.lexeme.inj (Option.some.inj hbar))
          (n.lexeme_ne_symbol _), nofun⟩
    | range s start stop inclusive =>
      rw [layout.eq_def]
      cases start with
      | none =>
        refine ⟨_, _, rfl, ?_⟩
        cases inclusive <;> exact .plain rfl nofun nofun
      | some l =>
        dsimp only
        rw [List.append_assoc, List.append_assoc]
        obtain ⟨l', ps, hps, hsigned, hbar, hor⟩ := l.layout_head indent _
        exact ⟨l', ps, hps, hsigned, fun h => absurd h hbar, hor⟩

theorem Object.layout_head (indent : Nat) (o : Object) (qs : List Piece) :
    ∃ ps, o.layout indent ++ qs = symbol .leftBrace :: ps := by
  obtain ⟨fields, s⟩ := o
  exact ⟨_, by rw [layout]; rfl⟩

theorem Block.layout_head (indent : Nat) (b : Block) (qs : List Piece) :
    ∃ ps, b.layout indent ++ qs = symbol .leftBrace :: ps := by
  obtain ⟨items, s⟩ := b
  cases items <;> exact ⟨_, by rw [layout]; rfl⟩

theorem Block.layoutItems_eq (indent : Nat) (items : List Item) :
    layoutItems indent items = items.flatMap fun i => line indent :: i.layout indent := by
  induction items with
  | nil => rfl
  | cons item items ih => rw [layoutItems, ih, List.flatMap_cons]

theorem Decl.layout_head (indent : Nat) (d : Decl) (qs : List Piece) :
    ∃ k ps, d.layout indent ++ qs = keyword k :: ps := by
  cases d <;> exact ⟨_, _, by rw [layout.eq_def]; rfl⟩

theorem Piece.names_cons (separator : List Piece) (n : Name) (ns : List Name) :
    names separator (n :: ns) = Piece.name n :: ns.flatMap fun m =>
      separator ++ [Piece.name m] := by
  induction ns generalizing n with
  | nil => rfl
  | cons m ns ih =>
    rw [List.flatMap_cons, List.append_assoc, List.singleton_append, ← ih m]
    rfl

end Layout

end ApiScript
