import ApiScript.Proofs.Ladder.Reread
import ApiScript.Proofs.Lexing.Clear

set_option autoImplicit false
set_option relaxedAutoImplicit false

/-!
Chains of operands and operators. A chain has one tree on the ladder, which puts each operator as
far down the right side of what stands in front of it as it binds more tightly than the operators
there. What plain trees on the ladder are written as is read as the same trees.
-/

namespace ApiScript

open Piece

/-- What stands between two operands: a binary operator or a pipe. -/
inductive Link
  | binary (op : BinaryOp)
  | pipe
  deriving DecidableEq

namespace Link

def lexeme : Link → Lexeme
  | binary op => op.lexeme
  | pipe => .symbol .pipe

def tightness : Link → Nat
  | binary op => op.precedence
  | pipe => 1

def join : Link → Expr → Expr → Expr
  | binary op, left, right => .binary .nowhere op left right
  | pipe, left, right => .pipe .nowhere left right

private theorem tightness_lt (link : Link) : link.tightness < 8 := by
  cases link with
  | binary op => exact op.precedence_lt
  | pipe => decide

end Link

namespace Expr

/-- Puts an operator and an operand behind an expression. -/
def graft : Expr → Link → Expr → Expr
  | binary s op left right, link, operand =>
    if link.tightness ≤ op.precedence then link.join (binary s op left right) operand
    else binary s op left (right.graft link operand)
  | pipe s left right, link, operand =>
    if link.tightness ≤ 1 then link.join (pipe s left right) operand
    else pipe s left (right.graft link operand)
  | e, link, operand => link.join e operand

def chain (first : Expr) (rest : List (Link × Expr)) : Expr :=
  rest.foldl (fun e (link, operand) => e.graft link operand) first

def chainLayout (first : Expr) (rest : List (Link × Expr)) : List Piece :=
  first.layout 0 ++ rest.flatMap fun (link, operand) => [space, Piece.lexeme link.lexeme, space] ++
    operand.layout 0

variable {room : Nat} {link : Link} {operand e : Expr}

private theorem layout_join : (link.join e operand).layout 0 =
    e.layout 0 ++ [space, Piece.lexeme link.lexeme, space] ++ operand.layout 0 := by
  cases link <;>
  · rw [Link.join, layout]
    rfl

private theorem plain_join (he : e.Plain room) (ho : operand.Plain room) :
    (link.join e operand).Plain room := by
  cases link with
  | binary => exact .binary he ho
  | pipe => exact .pipe he ho

private theorem Plain.graft (he : e.Plain room) (ho : operand.Plain room) :
    (e.graft link operand).Plain room := by
  fun_induction Expr.graft e link operand with
  | case1 | case3 | case5 => exact plain_join he ho
  | case2 _ _ _ _ _ _ _ ih =>
    cases he with
    | binary hleft hright => exact .binary hleft (ih hright ho)
  | case4 _ _ _ _ _ _ ih =>
    cases he with
    | pipe hleft hright => exact .pipe hleft (ih hright ho)

private theorem layout_graft : (e.graft link operand).layout 0 =
    e.layout 0 ++ [space, Piece.lexeme link.lexeme, space] ++ operand.layout 0 := by
  fun_induction Expr.graft e link operand with
  | case1 | case3 | case5 => exact layout_join
  | case2 s op left right _ _ _ ih =>
    rw [layout, layout, ih]
    simp only [List.append_assoc]
  | case4 s left right _ _ _ ih =>
    rw [layout, layout, ih]
    simp only [List.append_assoc]

private theorem laddered_join (htight : link.tightness ≤ e.tightness) (he : (Node.expr e).Laddered)
    (ho : (Node.expr operand).Laddered) (hoperand : 8 ≤ operand.tightness) :
    (Node.expr (link.join e operand)).Laddered ∧
      (link.join e operand).tightness = link.tightness := by
  have hlink := link.tightness_lt
  cases link with
  | binary op =>
    refine ⟨Grammar.laddered_of_onLadder
      (onLadder_binary htight (Nat.lt_of_lt_of_le hlink hoperand)) ?_, rfl⟩
    simp [Link.join, Node.childrenOfExpr, he, ho]
  | pipe =>
    refine ⟨Grammar.laddered_of_onLadder (isPipe_eq_false (Nat.lt_of_lt_of_le hlink hoperand)) ?_,
      rfl⟩
    simp [Link.join, Node.childrenOfExpr, he, ho]

private theorem laddered_graft (he : (Node.expr e).Laddered) (ho : (Node.expr operand).Laddered)
    (hoperand : 8 ≤ operand.tightness) : (Node.expr (e.graft link operand)).Laddered ∧
      (e.graft link operand).tightness = min link.tightness e.tightness := by
  fun_induction Expr.graft e link operand with
  | case1 s op left right _ _ h =>
    obtain ⟨hjoin, htight⟩ := laddered_join h he ho hoperand
    exact ⟨hjoin, htight.trans (Nat.min_eq_left h).symm⟩
  | case3 s left right _ _ h =>
    obtain ⟨hjoin, htight⟩ := laddered_join h he ho hoperand
    exact ⟨hjoin, htight.trans (Nat.min_eq_left h).symm⟩
  | case2 s op left right link operand h ih =>
    rw [Nat.not_le] at h
    have hleft := he.children (.expr left) (by simp [Node.children, Node.childrenOfExpr])
    have hright := he.children (.expr right) (by simp [Node.children, Node.childrenOfExpr])
    obtain ⟨hleft', hpipe, hop⟩ := he.here
    obtain ⟨hgraft, htight⟩ := ih hright ho hoperand
    have hbelow : op.precedence < (right.graft link operand).tightness := by
      rw [htight, Nat.lt_min]
      exact ⟨h, le_tightness op.precedence_lt hpipe hop⟩
    refine ⟨Grammar.laddered_of_onLadder ⟨hleft', isPipe_eq_false ?_, ?_⟩ ?_,
      (Nat.min_eq_right (Nat.le_of_lt h)).symm⟩
    · exact Nat.lt_trans op.precedence_pos hbelow
    · exact fun below hb => precedence_of_operator? hb ▸ hbelow
    · simp [Node.childrenOfExpr, hleft, hgraft]
  | case4 s left right link operand h ih =>
    rw [Nat.not_le] at h
    have hleft := he.children (.expr left) (by simp [Node.children, Node.childrenOfExpr])
    have hright := he.children (.expr right) (by simp [Node.children, Node.childrenOfExpr])
    obtain ⟨hgraft, htight⟩ := ih hright ho hoperand
    have hbelow : 1 < (right.graft link operand).tightness := by
      rw [htight, Nat.lt_min]
      exact ⟨h, le_tightness (by decide) he.here fun op _ => op.precedence_pos⟩
    refine ⟨Grammar.laddered_of_onLadder (isPipe_eq_false hbelow) ?_,
      (Nat.min_eq_right (Nat.le_of_lt h)).symm⟩
    simp [Node.childrenOfExpr, hleft, hgraft]
  | case5 e link operand hbinary hpipe =>
    have h : link.tightness ≤ e.tightness := by
      refine Nat.le_trans (Nat.le_of_lt link.tightness_lt) (le_tightness (Nat.le_refl 8) ?_ ?_)
      · cases e with
        | pipe s left right => exact absurd rfl (hpipe s left right)
        | _ => rfl
      · cases e with
        | binary s op left right => exact absurd rfl (hbinary s op left right)
        | _ =>
          intro op hop
          cases hop
    obtain ⟨hjoin, htight⟩ := laddered_join h he ho hoperand
    exact ⟨hjoin, htight.trans (Nat.min_eq_left h).symm⟩

structure Operand (room : Nat) (e : Expr) : Prop where
  plain : e.Plain room
  laddered : (Node.expr e).Laddered
  isPipe : e.isPipe = false
  operator? : e.operator? = none

private theorem Operand.tightness (h : Operand room e) : 8 ≤ e.tightness :=
  le_tightness (Nat.le_refl 8) h.isPipe (by simp [h.operator?])

private theorem chain_laddered {first : Expr} {rest : List (Link × Expr)}
    (hfirst : first.Plain room) (hladder : (Node.expr first).Laddered)
    (hrest : ∀ p ∈ rest, Operand room p.2) :
    (chain first rest).Plain room ∧ (Node.expr (chain first rest)).Laddered ∧
      (chain first rest).layout 0 = chainLayout first rest := by
  induction rest generalizing first with
  | nil => exact ⟨hfirst, hladder, by simp [chain, chainLayout]⟩
  | cons p rest ih =>
    obtain ⟨hp, hrest⟩ := List.forall_mem_cons.1 hrest
    have hgraft : (first.graft p.1 p.2).Plain room := hfirst.graft hp.plain
    obtain ⟨hplain, hladder', hlayout⟩ :=
      ih hgraft (laddered_graft hladder hp.laddered hp.tightness).1 hrest
    refine ⟨hplain, hladder', ?_⟩
    rw [chain, List.foldl_cons]
    change (chain (first.graft p.1 p.2) rest).layout 0 = _
    rw [hlayout, chainLayout, chainLayout, layout_graft, List.flatMap_cons]
    simp only [List.append_assoc]

private theorem Plain.mono {room' : Nat} (h : e.Plain room) (hroom : room ≤ room') :
    e.Plain room' := by
  induction h generalizing room' with
  | name h => exact .name h
  | paren _ ih =>
    obtain ⟨room', rfl⟩ := Nat.exists_eq_add_of_le' (Nat.le_trans (Nat.le_add_left 1 _) hroom)
    exact .paren (ih (Nat.le_of_succ_le_succ hroom))
  | pipe _ _ ihl ihr => exact .pipe (ihl hroom) (ihr hroom)
  | binary _ _ ihl ihr => exact .binary (ihl hroom) (ihr hroom)
  | unary _ ih =>
    obtain ⟨room', rfl⟩ := Nat.exists_eq_add_of_le' (Nat.le_trans (Nat.le_add_left 1 _) hroom)
    exact .unary (ih (Nat.le_of_succ_le_succ hroom))
  | member _ hfield ih => exact .member (ih hroom) hfield
  | index _ _ ih ihi =>
    obtain ⟨room', rfl⟩ := Nat.exists_eq_add_of_le' (Nat.le_trans (Nat.le_add_left 1 _) hroom)
    exact .index (ih hroom) (ihi (Nat.le_of_succ_le_succ hroom))
  | call _ hargs _ ih ihargs =>
    exact .call (ih hroom) (fun h => Nat.lt_of_lt_of_le (hargs h) hroom) fun a ha =>
      ihargs a ha (by omega)

private theorem Plain.meaningful (h : e.Plain room) : ∀ l ∈ e.lexemes, l.isTrivia = false ∧
    l ≠ .invalid := by
  have hname {n : Name} (hn : n.Plain) : n.lexeme.isTrivia = false ∧ n.lexeme ≠ .invalid := by
    rw [Name.lexeme, hn.identifier]
    exact ⟨rfl, Lexeme.noConfusion⟩
  have hsymbol (s : Symbol) : (Lexeme.symbol s).isTrivia = false ∧ Lexeme.symbol s ≠ .invalid :=
    ⟨rfl, Lexeme.noConfusion⟩
  have hargs {args : List Expr}
      (h : ∀ a ∈ args, ∀ l ∈ a.lexemes, l.isTrivia = false ∧ l ≠ .invalid) :
      ∀ l ∈ lexemesOfArgs args, l.isTrivia = false ∧ l ≠ .invalid := by
    cases args with
    | nil => exact List.forall_mem_nil _
    | cons a args =>
      rw [lexemesOfArgs_cons]
      obtain ⟨ha, hargs⟩ := List.forall_mem_cons.1 h
      simp only [List.forall_mem_append, List.forall_mem_flatMap, List.forall_mem_cons]
      exact ⟨ha, fun b hb => ⟨hsymbol .comma, hargs b hb⟩⟩
  induction h with
  | name hn => simpa [lexemes_name] using hname hn
  | paren _ ih =>
    rw [lexemes_paren, List.forall_mem_cons, List.forall_mem_append, List.forall_mem_singleton]
    exact ⟨hsymbol _, ih, hsymbol _⟩
  | pipe _ _ ihl ihr =>
    rw [lexemes_pipe, List.forall_mem_append, List.forall_mem_cons]
    exact ⟨ihl, hsymbol _, ihr⟩
  | @binary _ _ op _ _ _ _ ihl ihr =>
    rw [lexemes_binary, List.forall_mem_append, List.forall_mem_cons]
    exact ⟨ihl, by cases op <;> exact ⟨rfl, Lexeme.noConfusion⟩, ihr⟩
  | @unary _ _ op _ h ih =>
    rw [lexemes_unary h, List.forall_mem_cons]
    exact ⟨by cases op <;> exact hsymbol _, ih⟩
  | member _ hfield ih =>
    rw [lexemes_member, List.forall_mem_append, List.forall_mem_cons, List.forall_mem_singleton]
    exact ⟨ih, hsymbol _, hname hfield⟩
  | index _ _ ih ihi =>
    rw [lexemes_index, List.forall_mem_append, List.forall_mem_cons, List.forall_mem_append,
      List.forall_mem_singleton]
    exact ⟨ih, hsymbol _, ihi, hsymbol _⟩
  | call _ _ _ ih ihargs =>
    rw [lexemes_call, List.forall_mem_append, List.forall_mem_cons, List.forall_mem_append,
      List.forall_mem_singleton]
    exact ⟨ih, hsymbol _, hargs ihargs, hsymbol _⟩

end Expr

namespace Grammar

private theorem State.ofString_print {room : Nat} {e : Expr} (h : e.Plain room) :
    (ofString e.print 0).lexemes = e.lexemes ∧ (ofString e.print 0).log = [] := by
  have hkept : ∀ l ∈ Piece.lexemes (e.layout 0), l.isTrivia = false ∧ l ≠ .invalid := h.meaningful
  obtain ⟨hafter, hlog⟩ := ofString_render (h.legible.2 [] nofun) hkept
  refine ⟨?_, hlog⟩
  rw [lexemes, Expr.print, hafter, Piece.tokens_lexemes, Expr.lexemes]

end Grammar

open Grammar

/-- What a plain tree on the ladder is written as is read as the same tree, at any limit that leaves
room for it. -/
private theorem reads_print {room : Nat} {e : Expr} (hplain : e.Plain room)
    (hladder : (Node.expr e).Laddered) (limit : Nat) :
    ∃ e' t, Reads (wholeExpression (enter limit (room + 1))) (State.ofString e.print 0) e' t ∧
    e'.bare = e.bare ∧ t.log = [] := by
  obtain ⟨hlexemes, hlog⟩ := State.ofString_print hplain
  rw [← List.append_nil e.lexemes] at hlexemes
  obtain ⟨e', t, he', hread⟩ := (Returns.of_plain limit hplain hladder).expression hlexemes nofun
  refine ⟨e', t, reads_wholeExpression.2 ⟨broken_of_log_nil hlog, he', ?_⟩, hread.bare,
    hread.log.trans hlog⟩
  simpa [State.atEnd, State.lexemes] using hread.rest

private theorem bare_eq_of_print {room room' : Nat} {e f : Expr} (he : e.Plain room)
    (hf : f.Plain room') (heladder : (Node.expr e).Laddered) (hfladder : (Node.expr f).Laddered)
    (h : e.print = f.print) :
    e.bare = f.bare := by
  obtain ⟨e', t, hread, hbare, _⟩ := reads_print (he.mono (Nat.le_max_left room room')) heladder 0
  obtain ⟨f', u, hread', hbare', _⟩ :=
    reads_print (hf.mono (Nat.le_max_right room room')) hfladder 0
  rw [h] at hread
  obtain ⟨rfl, _⟩ := EStateM.Result.ok.inj (hread.symm.trans hread')
  exact hbare.symm.trans hbare'

/-- What a tree of names, parentheses, operators, members, indices and calls is written as is read
as that tree, if it is on the ladder and within the limit of nesting. A chain of operands and
operators, however long, is read as the one tree on the ladder that is written as it. -/
theorem parseExpr_print :
    (∀ e : Expr, e.Plain (Session.defaultLimit - 1) → (Node.expr e).Everywhere Node.OnLadder →
      ∃ e', parseExpr e.print = (some e', []) ∧ e'.bare = e.bare) ∧
    ∀ (first : Expr) (rest : List (Link × Expr)),
      (∀ e ∈ first :: rest.map (·.2), e.Operand (Session.defaultLimit - 1)) →
      ∃ e', parseExpr (Piece.render (Expr.chainLayout first rest)) = (some e', []) ∧
        (∃ tree : Expr, tree.Plain (Session.defaultLimit - 1) ∧
        (Node.expr tree).Everywhere Node.OnLadder ∧
          tree.print = Piece.render (Expr.chainLayout first rest) ∧ e'.bare = tree.bare) ∧
        ∀ (room : Nat) (tree : Expr), tree.Plain room → (Node.expr tree).Everywhere Node.OnLadder →
          tree.print = Piece.render (Expr.chainLayout first rest) → e'.bare = tree.bare := by
  have hprint (e : Expr) (hplain : e.Plain (Session.defaultLimit - 1))
    (hladder : (Node.expr e).Laddered) :
      ∃ e', parseExpr e.print = (some e', []) ∧ e'.bare = e.bare := by
    obtain ⟨e', t, hread, hbare, hlog⟩ := reads_print hplain hladder Session.defaultLimit
    exact ⟨e', parseExpr_eq_some.2 ⟨t, hread, hlog⟩, hbare⟩
  refine ⟨hprint, fun first rest hoperands => ?_⟩
  rw [List.forall_mem_cons, List.forall_mem_map] at hoperands
  obtain ⟨hplain, hladder, hlayout⟩ :=
    Expr.chain_laddered hoperands.1.plain hoperands.1.laddered fun p hp => hoperands.2 p hp
  have hwritten : (Expr.chain first rest).print = Piece.render (Expr.chainLayout first rest) := by
    rw [Expr.print, hlayout]
  obtain ⟨e', hparse, hbare⟩ := hprint _ hplain hladder
  rw [hwritten] at hparse
  refine ⟨e', hparse, ⟨_, hplain, hladder, hwritten, hbare⟩,
    fun room tree htree htreeladder h => ?_⟩
  exact hbare.trans (bare_eq_of_print hplain htree hladder htreeladder (hwritten.trans h.symm))

/-- A pipe in parentheses with an index behind it, and a chain of a sum, a product and a pipe. -/
theorem parseExpr_print_of_chain :
    let name (c : Char) : Expr := .name ⟨String.ofList [c], .nowhere⟩
    let tree : Expr :=
      .index .nowhere (.paren .nowhere (.pipe .nowhere (name 'a') (name 'b')))
        (.unary .nowhere .neg (name 'c'))
    let rest := [(Link.binary .add, name 'b'), (.binary .mul, name 'c'),
      (.pipe, .call .nowhere (name 'f') [name 'd'])]
    tree.print = "(a |> b)[-c]" ∧
      (∃ e, parseExpr "(a |> b)[-c]" = (some e, []) ∧ e.bare = tree.bare) ∧
      Piece.render (Expr.chainLayout (name 'a') rest) = "a + b * c |> f(d)" ∧
      ∃ e, parseExpr "a + b * c |> f(d)" = (some e, []) ∧
      e.bare = (Expr.chain (name 'a') rest).bare := by
  intro name tree rest
  have hname {c : Char} {room : Nat} (hc : Lexeme.isWordStart c = true ∧ Lexeme.isWordPart c = true)
      (hword : Lexeme.ofWord (String.ofList [c]) = .identifier (String.ofList [c])) :
      (name c).Plain room :=
    .name ⟨⟨⟨c, [], String.toList_ofList, hc.1⟩, by simp [hc.2]⟩, hword⟩
  have hladder (c : Char) : (Node.expr (name c)).Laddered :=
    .intro trivial (by simp [name, Node.children, Node.childrenOfExpr, laddered_name])
  have htree : tree.print = "(a |> b)[-c]" := by decide +kernel
  have hchain : Piece.render (Expr.chainLayout (name 'a') rest) = "a + b * c |> f(d)" := by
    decide +kernel
  have hnamed (c : Char) (hplain : (name c).Plain 47) : (name c).Operand 47 :=
    ⟨hplain, hladder c, rfl, rfl⟩
  have hfirst : (name 'a').Operand 47 := hnamed 'a' (hname (by decide) (by decide +kernel))
  have hcall : (Expr.call .nowhere (name 'f') [name 'd']).Operand 47 := by
    refine ⟨.call (hname (by decide) (by decide +kernel)) (by decide) ?_, .intro rfl ?_, rfl, rfl⟩
    · exact List.forall_mem_singleton.2 (hname (by decide) (by decide +kernel))
    · simp [Node.children, Node.childrenOfExpr, hladder]
  have hrest : ∀ p ∈ rest, p.2.Operand 47 := by
    simp only [rest, List.forall_mem_cons]
    exact ⟨hnamed 'b' (hname (by decide) (by decide +kernel)),
      hnamed 'c' (hname (by decide) (by decide +kernel)), hcall,
      List.forall_mem_nil _⟩
  refine ⟨htree, ?_, hchain, ?_⟩
  · refine htree ▸ parseExpr_print.1 tree (.index (.paren (.pipe ?_ ?_)) (.unary ?_))
      (.intro rfl ?_)
    · exact hname (by decide) (by decide +kernel)
    · exact hname (by decide) (by decide +kernel)
    · exact hname (by decide) (by decide +kernel)
    · refine List.forall_mem_cons.2
        ⟨.intro trivial ?_, List.forall_mem_singleton.2 (.intro ⟨rfl, rfl⟩ ?_)⟩
      · refine List.forall_mem_singleton.2 (.intro rfl ?_)
        simp [Node.children, Node.childrenOfExpr, hladder]
      · simp [Node.children, Node.childrenOfExpr, hladder]
  · have hoperands : ∀ e ∈ name 'a' :: rest.map (·.2), e.Operand 47 :=
      List.forall_mem_cons.2 ⟨hfirst, List.forall_mem_map.2 hrest⟩
    obtain ⟨e, hparse, _, hunique⟩ := parseExpr_print.2 (name 'a') rest hoperands
    obtain ⟨hplain, hladdered, hlayout⟩ := Expr.chain_laddered hfirst.plain hfirst.laddered hrest
    refine ⟨e, hchain ▸ hparse, hunique 47 _ hplain hladdered ?_⟩
    rw [Expr.print, hlayout]

end ApiScript
