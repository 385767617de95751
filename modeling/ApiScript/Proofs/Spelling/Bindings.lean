import ApiScript.Proofs.Shape.Embedded
import ApiScript.Proofs.Value.Parts

set_option autoImplicit false
set_option relaxedAutoImplicit false

/-!
The names that a pattern binds, by the tokens that it is written with: its identifiers in order, but
for keys with a pattern of their own, which stand in front of a colon, and for wildcards.
-/

namespace ApiScript

open Grammar Mark

def Lexeme.identifier? : Lexeme → Option String
  | identifier text => some text
  | _ => none

namespace Token

def colonNext : List Token → Bool
  | [] => false
  | t :: _ => t.lexeme == .symbol .colon

/-- The identifiers among tokens that `rest` is behind, in order, each with whether a colon follows
it. -/
def identifiers : List Token → List Token → List (Name × Bool)
  | [], _ => []
  | t :: ts, rest =>
    match t.lexeme.identifier? with
    | some text => (⟨text, t.span⟩, colonNext (ts ++ rest)) :: identifiers ts rest
    | none => identifiers ts rest

private def Silent (t : Token) : Prop := t.lexeme.identifier? = none

section Identifiers

variable {t : Token} {ts us rest : List Token} {text : String}

private theorem identifiers_cons_of_silent (h : t.Silent) :
    identifiers (t :: ts) rest = identifiers ts rest := by
  rw [identifiers, show t.lexeme.identifier? = none from h]

private theorem identifiers_cons_of_identifier (h : t.lexeme = .identifier text) :
    identifiers (t :: ts) rest =
      (⟨text, t.span⟩, colonNext (ts ++ rest)) :: identifiers ts rest := by
  rw [identifiers, h]
  rfl

private theorem colonNext_cons (h : t.lexeme ≠ .symbol .colon) : colonNext (t :: ts) = false :=
  beq_eq_false_iff_ne.2 h

private theorem identifiers_append (ts us rest : List Token) :
    identifiers (ts ++ us) rest = identifiers ts (us ++ rest) ++ identifiers us rest := by
  induction ts with
  | nil => rfl
  | cons t ts ih =>
    rw [List.cons_append, identifiers, identifiers, ih, List.append_assoc]
    split <;> rfl

private theorem identifiers_of_silent (h : ∀ t ∈ ts, t.Silent) : identifiers ts rest = [] := by
  induction ts with
  | nil => rfl
  | cons t ts ih =>
    obtain ⟨ht, hts⟩ := List.forall_mem_cons.1 h
    rw [identifiers_cons_of_silent ht, ih hts]

private theorem spans_identifiers (ts rest : List Token) :
    ((identifiers ts rest).map fun x => x.1.span).Sublist (ts.map (·.span)) := by
  induction ts with
  | nil => exact .refl _
  | cons t ts ih =>
    rw [identifiers]
    split
    · exact ih.cons_cons _
    · exact ih.cons _

private theorem InOrder.nodup (h : InOrder ts) : (ts.map (·.span)).Nodup := by
  refine List.pairwise_map.2 (h.ordered.imp_of_mem fun {t u} ht hu hle hsame => ?_)
  have hlt := h.nonempty u hu
  rw [hsame] at hle
  omega

end Identifiers

end Token

instance (a b : Span) : Decidable (a.Within b) := inferInstanceAs (Decidable (_ ∧ _))

private theorem Token.InOrder.identifiers_within {front ts behind : List Token} {span : Span}
    (h : InOrder (front ++ ts ++ behind)) (hs : span.Covers ts) :
    (identifiers (front ++ ts ++ behind) []).filter (fun x => x.1.span.Within span) =
      identifiers ts behind := by
  have hmem {us rest : List Token} {x : Name × Bool} (hx : x ∈ identifiers us rest) :
      ∃ t ∈ us, t.span = x.1.span :=
    List.mem_map.1 ((spans_identifiers us rest).subset (List.mem_map_of_mem hx))
  obtain ⟨⟨first, hfirst, hstart⟩, last, hlast, hstop⟩ := hs.mem
  have hfront : (identifiers front (ts ++ behind)).filter (fun x => x.1.span.Within span) = [] := by
    refine List.filter_eq_nil_iff.2 fun x hx hwithin => ?_
    obtain ⟨t, ht, hspan⟩ := hmem hx
    have hle := h.left.apart ht hfirst
    have hlt := h.nonempty t (by simp [ht])
    have hin := (of_decide_eq_true hwithin).1
    rw [← hspan] at hin
    omega
  have hbehind : (identifiers behind []).filter (fun x => x.1.span.Within span) = [] := by
    refine List.filter_eq_nil_iff.2 fun x hx hwithin => ?_
    obtain ⟨t, ht, hspan⟩ := hmem hx
    have hle := h.apart (List.mem_append_right front hlast) ht
    have hlt := h.nonempty t (by simp [ht])
    have hin := (of_decide_eq_true hwithin).2
    rw [← hspan] at hin
    omega
  have hts : (identifiers ts behind).filter (fun x => x.1.span.Within span) =
      identifiers ts behind := by
    refine List.filter_eq_self.2 fun x hx => decide_eq_true ?_
    obtain ⟨t, ht, hspan⟩ := hmem hx
    exact hspan ▸ h.left.right.within hs t ht
  rw [List.append_assoc, identifiers_append, identifiers_append, List.filter_append,
    List.filter_append, List.append_nil, List.append_nil, hfront, hbehind, hts, List.nil_append,
    List.append_nil]

private theorem Span.Covers.eq_span {span : Span} {t : Token} (h : span.Covers [t]) :
    span = t.span := by
  obtain ⟨⟨first, hfirst, hstart⟩, last, hlast, hstop⟩ := h
  obtain rfl : t = first := Option.some.inj hfirst
  obtain rfl : t = last := Option.some.inj hlast
  cases span
  exact congrArg₂ Span.mk hstart hstop

/-- What an identifier is for in a pattern. -/
inductive Pattern.Role
  | name
  | wildcard
  /-- A key of an object, with a pattern of its own or alone. -/
  | key (alone : Bool)

namespace Pattern.Role

private def binds : Role → Bool
  | name => true
  | wildcard => false
  | key alone => alone

def parts : Role → Bool
  | key alone => !alone
  | _ => false

def isKey : Role → Bool
  | key _ => true
  | _ => false

private def Admits : Role → String → Prop
  | name, text => text ≠ "_"
  | wildcard, text => text = "_"
  | key _, _ => True

end Pattern.Role

mutual

def Pattern.identifiers : Pattern → List (Name × Pattern.Role)
  | .name n => [(n, .name)]
  | .wildcard span => [(⟨"_", span⟩, .wildcard)]
  | .literal _ | .range _ _ _ _ => []
  | .array _ elements => identifiersOfAll elements
  | .object _ fields => identifiersOfFields fields

def Pattern.identifiersOfAll : List Pattern → List (Name × Pattern.Role)
  | [] => []
  | p :: ps => p.identifiers ++ Pattern.identifiersOfAll ps

def Pattern.identifiersOfFields : List FieldPattern → List (Name × Pattern.Role)
  | [] => []
  | ⟨key, none, _⟩ :: fields => (key, .key true) :: Pattern.identifiersOfFields fields
  | ⟨key, some p, _⟩ :: fields =>
    (key, .key false) :: (p.identifiers ++ Pattern.identifiersOfFields fields)

end

private def FieldPattern.identifiers : FieldPattern → List (Name × Pattern.Role)
  | ⟨key, none, _⟩ => [(key, .key true)]
  | ⟨key, some p, _⟩ => (key, .key false) :: p.identifiers

namespace Pattern

private theorem identifiersOfAll_eq (ps : List Pattern) :
    identifiersOfAll ps = ps.flatMap identifiers := by
  induction ps with
  | nil => rfl
  | cons p ps ih => rw [identifiersOfAll, ih, List.flatMap_cons]

private theorem identifiersOfFields_eq (fields : List FieldPattern) :
    identifiersOfFields fields = fields.flatMap FieldPattern.identifiers := by
  induction fields with
  | nil => rfl
  | cons f fields ih =>
    obtain ⟨key, _ | p, span⟩ := f
    · rw [identifiersOfFields, ih]
      rfl
    · rw [identifiersOfFields, ih, List.flatMap_cons, ← List.cons_append]
      rfl

/-- The names that stand as keys of objects, anywhere in the pattern. -/
def keys (p : Pattern) : List Name := (p.identifiers.filter (·.2.isKey)).map (·.1)

/-- Whether an identifier is one that the pattern binds, from its place and from what follows it. -/
def takes (p : Pattern) (x : Name × Bool) : Bool :=
  x.1.span.Within p.span && !x.2 && (x.1.text != "_" || p.keys.contains x.1)

private theorem bindings_eq (p : Pattern) :
    p.bindings = (p.identifiers.filter (·.2.binds)).map (·.1.text) := by
  induction p using Pattern.induction with
  | name | wildcard | literal | range => rfl
  | array span ps ih =>
    rw [bindings, identifiers]
    induction ps with
    | nil => rfl
    | cons p ps ihs =>
      obtain ⟨hp, hps⟩ := List.forall_mem_cons.1 ih
      rw [bindingsOfAll, identifiersOfAll, List.filter_append, List.map_append, hp, ihs hps]
  | object span fields ih =>
    rw [bindings, identifiers]
    induction fields with
    | nil => rfl
    | cons f fields ihs =>
      obtain ⟨hf, hfields⟩ := List.forall_mem_cons.1 ih
      obtain ⟨key, _ | p, fieldSpan⟩ := f
      · rw [bindingsOfFields, identifiersOfFields, ihs hfields]
        rfl
      · rw [bindingsOfFields, identifiersOfFields, hf p rfl, ihs hfields,
          List.filter_cons_of_neg Bool.false_ne_true, List.filter_append, List.map_append]

private theorem admits_of_wellFormed {source : String} {p : Pattern}
    (h : (Node.pattern p).Everywhere (Node.WellFormed source)) :
    ∀ x ∈ p.identifiers, x.2.Admits x.1.text := by
  induction p using Pattern.induction with
  | name n =>
    intro x hx
    obtain rfl := List.mem_singleton.1 hx
    exact h.here.formed
  | wildcard span =>
    intro x hx
    obtain rfl := List.mem_singleton.1 hx
    rfl
  | literal | range => exact fun _ hx => absurd hx List.not_mem_nil
  | array span ps ih =>
    intro x hx
    rw [identifiers, identifiersOfAll_eq, List.mem_flatMap] at hx
    obtain ⟨p, hp, hx⟩ := hx
    exact ih p hp (h.children _ (List.mem_map_of_mem hp)) x hx
  | object span fields ih =>
    intro x hx
    rw [identifiers, identifiersOfFields_eq, List.mem_flatMap] at hx
    obtain ⟨⟨key, _ | p, fieldSpan⟩, hf, hx⟩ := hx
    · obtain rfl := List.mem_singleton.1 hx
      trivial
    · rcases List.mem_cons.1 hx with rfl | hx
      · trivial
      · have hfield := h.children _ (List.mem_map_of_mem hf)
        exact ih _ hf p rfl
          (hfield.children _ (List.mem_cons_of_mem _ (List.mem_singleton_self _))) x hx

end Pattern

/-- Items in order, each by the tokens that its marks stand for, with no colon behind them. Between
items there are no identifiers. -/
private inductive Mark.Rows {α : Type} (marks : α → List Mark) :
    List α → List Token → List Token → Prop
  | nil {rest : List Token} : Rows marks [] [] rest
  | silent {as : List α} {t : Token} {ts rest : List Token} (ht : t.Silent)
    (h : Rows marks as ts rest) :
    Rows marks as (t :: ts) rest
  | item {a : α} {as : List α} {us vs rest : List Token}
    (ha : SpelledAll true (marks a) us (vs ++ rest))
    (hnext : Token.colonNext (vs ++ rest) = false) (h : Rows marks as vs rest) :
    Rows marks (a :: as) (us ++ vs) rest

private def Mark.Quiet (ms : List Mark) : Prop :=
  ∀ ⦃ts rest : List Token⦄, SpelledAll true ms ts rest → ∀ t ∈ ts, t.Silent

namespace Mark

private theorem SpelledAll.lexeme {l : Lexeme} {follow : Follow} {lax : Bool} {ms : List Mark}
    {ts rest : List Token} (h : SpelledAll lax (.lexeme l follow :: ms) ts rest) :
    ∃ t us, ts = t :: us ∧ t.lexeme = l ∧ SpelledAll lax ms us rest := by
  simp only [SpelledAll, Spelled] at h
  obtain ⟨_, us, rfl, ⟨t, rfl, ht, -⟩, hms⟩ := h
  exact ⟨t, us, rfl, ht, hms⟩

section Quiet

variable {ms ns : List Mark} {span : Span}

private theorem quiet_nil : Quiet [] := by
  intro ts rest h t ht
  rw [SpelledAll] at h
  rw [h] at ht
  cases ht

private theorem Quiet.append (hms : Quiet ms) (hns : Quiet ns) : Quiet (ms ++ ns) := by
  intro ts rest h
  obtain ⟨us, vs, rfl, hus, hvs⟩ := spelledAll_append.1 h
  exact List.forall_mem_append.2 ⟨hms hus, hns hvs⟩

private theorem Quiet.lexeme {l : Lexeme} {follow : Follow} (hl : l.identifier? = none)
    (hms : Quiet ms) :
    Quiet (.lexeme l follow :: ms) := by
  intro ts rest h
  obtain ⟨t, us, rfl, rfl, hus⟩ := h.lexeme
  exact List.forall_mem_cons.2 ⟨hl, hms hus⟩

private theorem Quiet.node (hms : Quiet ms) : Quiet [.node span ms] := by
  intro ts rest h
  rw [spelledAll_singleton, Spelled] at h
  exact hms h.2

private theorem quiet_number (kind : NumberClass) (raw : String) : Quiet (number kind raw) := by
  unfold number
  split
  · exact .lexeme rfl (.lexeme rfl quiet_nil)
  · exact .lexeme rfl quiet_nil

private theorem quiet_quoted (quote : Quote) (parts : List Part) : Quiet [.quoted quote parts] := by
  intro ts rest h
  rw [spelledAll_singleton] at h
  cases quote <;> rw [Spelled] at h
  all_goals
    obtain ⟨t, raw, _, rfl, ht, -⟩ := h
    refine List.forall_mem_singleton.2 ?_
    rw [Token.Silent, ht]
    rfl

private theorem quiet_bytes (value : List UInt8) : Quiet [.bytes value] := by
  intro ts rest h
  rw [spelledAll_singleton, Spelled] at h
  obtain ⟨t, raw, rfl, ht, -⟩ := h
  refine List.forall_mem_singleton.2 ?_
  rw [Token.Silent, ht]
  rfl

private theorem quiet_literal (l : Literal) : Quiet l.marks := by
  cases l with
  | null | bool =>
    rw [Literal.marks]
    exact .node (.lexeme rfl quiet_nil)
  | integer | float | duration | size =>
    rw [Literal.marks]
    exact .node (quiet_number _ _)
  | string s =>
    obtain ⟨quote, parts, span⟩ := s
    rw [Literal.marks, StringLiteral.marks]
    exact .node (.node (quiet_quoted quote _))
  | bytes =>
    rw [Literal.marks]
    exact .node (quiet_bytes _)

private theorem quiet_range (span : Span) (start stop : Option Literal) (inclusive : Bool) :
    Quiet (Pattern.range span start stop inclusive).marks := by
  rw [Pattern.marks.eq_def]
  refine .node (.append ?_ ?_)
  · cases start with
    | none => exact quiet_nil
    | some l => exact quiet_literal l
  · cases stop with
    | none => exact .lexeme (by cases inclusive <;> rfl) quiet_nil
    | some l => exact .lexeme (by cases inclusive <;> rfl) (quiet_literal l)

end Quiet

section Rows

variable {α : Type} {marks : α → List Mark} {as : List α} {ts us rest : List Token}

private theorem colonNext_of_symbol {t : Token} {symbol : Symbol} (h : t.lexeme = .symbol symbol)
    (hsymbol : symbol ≠ .colon) :
    Token.colonNext (t :: ts) = false := by
  refine Token.colonNext_cons fun hcolon => hsymbol ?_
  rw [h] at hcolon
  exact Lexeme.symbol.inj hcolon

private theorem silent_of_symbol {t : Token} {symbol : Symbol} (h : t.lexeme = .symbol symbol) :
    t.Silent := by
  rw [Token.Silent, h]
  rfl

private theorem rows_further {closer : Symbol} (hcloser : closer ≠ .colon)
    (h : SpelledAll true ((as.map marks).flatMap (symbol .comma :: ·) ++ [.trailing closer])
      ts rest) :
    Rows marks as ts rest ∧ Token.colonNext (ts ++ rest) = false := by
  induction as generalizing ts with
  | nil =>
    rw [List.map_nil, List.flatMap_nil, List.nil_append, spelledAll_singleton, Spelled] at h
    rcases h with h | h
    · obtain ⟨t, rfl, ht⟩ := List.map_eq_singleton_iff.1 h
      exact ⟨.silent (silent_of_symbol ht) .nil, colonNext_of_symbol ht hcloser⟩
    · obtain ⟨t, us, rfl, ht, hus⟩ := List.map_eq_cons_iff.1 h
      obtain ⟨u, rfl, hu⟩ := List.map_eq_singleton_iff.1 hus
      exact ⟨.silent (silent_of_symbol ht) (.silent (silent_of_symbol hu) .nil),
        colonNext_of_symbol ht (by decide)⟩
  | cons a as ih =>
    rw [List.map_cons, List.flatMap_cons, List.append_assoc, List.cons_append] at h
    obtain ⟨t, us, rfl, ht, hus⟩ := h.lexeme
    obtain ⟨vs, ws, rfl, hvs, hws⟩ := spelledAll_append.1 hus
    obtain ⟨hrows, hnext⟩ := ih hws
    exact ⟨.silent (silent_of_symbol ht) (.item hvs hnext hrows),
      colonNext_of_symbol ht (by decide)⟩

private theorem rows_listed {opener closer : Symbol} (hcloser : closer ≠ .colon)
    (h : SpelledAll true (listed opener closer true (as.map marks)) ts rest) :
    Rows marks as ts rest := by
  cases as with
  | nil =>
    obtain ⟨t, us, rfl, ht, hus⟩ := h.lexeme
    obtain ⟨u, vs, rfl, hu, hvs⟩ := hus.lexeme
    rw [SpelledAll] at hvs
    subst hvs
    exact .silent (silent_of_symbol ht) (.silent (silent_of_symbol hu) .nil)
  | cons a as =>
    rw [List.map_cons, listed, separated, List.cons_append, List.append_assoc] at h
    · obtain ⟨t, us, rfl, ht, hus⟩ := h.lexeme
      obtain ⟨vs, ws, rfl, hvs, hws⟩ := spelledAll_append.1 hus
      obtain ⟨hrows, hnext⟩ := rows_further hcloser hws
      exact .silent (silent_of_symbol ht) (.item hvs hnext hrows)
    · exact List.cons_ne_nil _ _

private theorem Rows.written (h : Rows marks as ts rest) :
    ∀ a ∈ as, ∃ front us behind, ts = front ++ us ++ behind ∧
    SpelledAll true (marks a) us (behind ++ rest) ∧ Token.colonNext (behind ++ rest) = false := by
  induction h with
  | nil => exact fun _ ha => absurd ha List.not_mem_nil
  | @silent as t ts rest ht h ih =>
    intro a ha
    obtain ⟨front, us, behind, rfl, hus⟩ := ih a ha
    exact ⟨t :: front, us, behind, rfl, hus⟩
  | @item a as us vs rest ha hnext h ih =>
    refine List.forall_mem_cons.2 ⟨⟨[], us, vs, rfl, ha, hnext⟩, fun b hb => ?_⟩
    obtain ⟨front, us', behind, rfl, hus'⟩ := ih b hb
    exact ⟨us ++ front, us', behind, by simp only [List.append_assoc], hus'⟩

private theorem Rows.identifiers {f : α → List (Name × Bool)} (h : Rows marks as ts rest)
    (hf : ∀ a ∈ as, ∀ us vs, SpelledAll true (marks a) us vs → Token.colonNext vs = false →
      Token.identifiers us vs = f a) :
    Token.identifiers ts rest = as.flatMap f := by
  induction h with
  | nil => rfl
  | silent ht h ih => rw [Token.identifiers_cons_of_silent ht, ih hf]
  | item ha hnext h ih =>
    obtain ⟨hfirst, hothers⟩ := List.forall_mem_cons.1 hf
    rw [Token.identifiers_append, hfirst _ _ ha hnext, ih hothers, List.flatMap_cons]

end Rows

end Mark

namespace Pattern

private theorem exists_of_identifier {span : Span} {text : String} {follow : Follow}
    {ts rest : List Token}
    (h : SpelledAll true [.node span [.lexeme (.identifier text) follow]] ts rest) :
    Token.identifiers ts rest = [(⟨text, span⟩, Token.colonNext rest)] := by
  rw [spelledAll_singleton, Spelled] at h
  obtain ⟨hspan, hspelled⟩ := h
  obtain ⟨t, us, rfl, ht, hus⟩ := hspelled.lexeme
  rw [SpelledAll] at hus
  subst hus
  rw [Token.identifiers_cons_of_identifier ht, hspan.eq_span]
  rfl

/-- The identifiers among the tokens of a pattern are the pattern's own, and a colon follows those
that are keys with a pattern of their own. -/
private theorem identifiers_written (p : Pattern) {ts rest : List Token}
    (h : SpelledAll true p.marks ts rest) (hnext : Token.colonNext rest = false) :
    Token.identifiers ts rest = p.identifiers.map fun x => (x.1, x.2.parts) := by
  induction p using Pattern.induction generalizing ts rest with
  | name n =>
    rw [marks, spelledAll_singleton, Spelled] at h
    rw [exists_of_identifier h.2, hnext]
    rfl
  | wildcard span =>
    rw [marks] at h
    rw [exists_of_identifier h, hnext]
    rfl
  | literal l =>
    rw [marks] at h
    exact Token.identifiers_of_silent ((quiet_literal l).node h)
  | range span start stop inclusive =>
    exact Token.identifiers_of_silent (quiet_range span start stop inclusive h)
  | array span ps ih =>
    rw [marks, spelledAll_singleton, Spelled, marksEach_eq_map] at h
    rw [identifiers, identifiersOfAll_eq, List.map_flatMap]
    exact (rows_listed (by decide) h.2).identifiers fun p hp us vs hus hvs => ih p hp hus hvs
  | object span fields ih =>
    rw [marks, spelledAll_singleton, Spelled, FieldPattern.marksEach_eq_map] at h
    rw [identifiers, identifiersOfFields_eq, List.map_flatMap]
    refine (rows_listed (by decide) h.2).identifiers fun f hf us vs hus hvs => ?_
    obtain ⟨key, _ | p, fieldSpan⟩ := f
    · rw [FieldPattern.marks, spelledAll_singleton, Spelled, List.append_nil] at hus
      rw [exists_of_identifier hus.2, hvs]
      rfl
    · rw [FieldPattern.marks, spelledAll_singleton, Spelled] at hus
      obtain ⟨ws, xs, rfl, hws, hxs⟩ := spelledAll_append.1 hus.2
      obtain ⟨t, ys, rfl, ht, hys⟩ := hxs.lexeme
      rw [Token.identifiers_append, exists_of_identifier hws,
        Token.identifiers_cons_of_silent (silent_of_symbol ht), ih _ hf p rfl hys hvs]
      have hcolon : Token.colonNext (t :: ys ++ vs) = true := beq_iff_eq.2 ht
      rw [hcolon]
      rfl

private theorem nodup_identifiers {p : Pattern} {ts rest : List Token}
    (h : SpelledAll true p.marks ts rest) (hnext : Token.colonNext rest = false)
    (horder : Token.InOrder ts) : (p.identifiers.map (·.1.span)).Nodup := by
  have hspans := Token.spans_identifiers ts rest
  rw [identifiers_written p h hnext, List.map_map] at hspans
  exact horder.nodup.sublist hspans

private theorem bindings_of_identifiers {source : String} {p : Pattern} {ts rest : List Token}
    (h : SpelledAll true p.marks ts rest) (hnext : Token.colonNext rest = false)
    (horder : Token.InOrder ts) (hp : (Node.pattern p).Everywhere (Node.WellFormed source)) :
    p.bindings = ((Token.identifiers ts rest).filter fun x =>
      !x.2 && (x.1.text != "_" || p.keys.contains x.1)).map (·.1.text) := by
  rw [bindings_eq, identifiers_written p h hnext, List.filter_map, List.map_map]
  -- Both sides pick among the same identifiers; a wildcard is no key, since a key would have a
  -- place of its own.
  refine congrArg _ (List.filter_congr fun x hx => ?_)
  have hadmits := admits_of_wellFormed hp x hx
  obtain ⟨n, role⟩ := x
  cases role with
  | name =>
    have htext : n.text ≠ "_" := hadmits
    simp [Role.binds, Role.parts, htext]
  | wildcard =>
    have hkey : n ∉ p.keys := by
      intro hn
      obtain ⟨y, hy, rfl⟩ := List.mem_map.1 hn
      obtain ⟨hy, hrole⟩ := List.mem_filter.1 hy
      have hsame := List.inj_on_of_nodup_map (nodup_identifiers h hnext horder) hx hy rfl
      rw [← hsame] at hrole
      cases hrole
    have htext : n.text = "_" := hadmits
    simp [Role.binds, Role.parts, htext, hkey]
  | key alone =>
    have hkey : n ∈ p.keys := List.mem_map.2 ⟨_, List.mem_filter.2 ⟨hx, rfl⟩, rfl⟩
    simp [Role.binds, Role.parts, hkey]

end Pattern

namespace Node

private def isPattern : Node → Bool
  | pattern _ | fieldPattern _ => true
  | _ => false

/-- The node stands for tokens of the source, or of code embedded in it, and no colon follows if it
is a pattern. -/
private def Ends (source : String) (n : Node) : Prop :=
  ∃ text offset, Excerpt source text offset ∧ ∃ front ts behind,
    Excerpt.tokens text offset = front ++ ts ++ behind ∧ n.Written ts behind ∧
      (n.isPattern = true → Token.colonNext behind = false)

private inductive Holds : Node → Node → Prop
  | binding (span : Span) (p : Pattern) (value : Expr) :
    Holds (decl (.binding span p value)) (pattern p)
  | arm (a : Arm) : Holds (arm a) (pattern a.pattern)
  | element {span : Span} {ps : List Pattern} {p : Pattern} (hp : p ∈ ps) :
    Holds (pattern (.array span ps)) (pattern p)
  | field {span : Span} {fields : List FieldPattern} {f : FieldPattern} (hf : f ∈ fields) :
    Holds (pattern (.object span fields)) (fieldPattern f)
  | value (key : Name) (p : Pattern) (span : Span) :
    Holds (fieldPattern ⟨key, some p, span⟩) (pattern p)

private theorem isPattern_ofKey (k : Key) : (ofKey k).isPattern = false := by cases k <;> rfl

private theorem isPattern_ofBody (b : Body) : (ofBody b).isPattern = false := by cases b <;> rfl

private theorem isPattern_ofAlternative (a : Alternative) :
    (ofAlternative a).isPattern = false := by cases a <;> rfl

private theorem holds_of_child {n c : Node} (hc : c ∈ n.children) (h : c.isPattern = true) :
    n.Holds c := by
  cases n with
  | pattern p => cases p <;> grind [children, childrenOfPattern, ofOption, isPattern, Holds]
  | fieldPattern f =>
    obtain ⟨key, pattern, span⟩ := f
    cases pattern <;> grind [children, ofOption, isPattern, Holds]
  | decl d =>
    cases d with
    | use span target body => cases target <;> grind [children, childrenOfDecl, ofOption, isPattern]
    | _ => grind [children, childrenOfDecl, ofOption, isPattern, isPattern_ofBody, Holds]
  | arm a => grind [children, ofOption, isPattern, Holds]
  | expr e => cases e <;> grind [children, childrenOfExpr, ofOption, isPattern]
  | item i => cases i <;> grind [children, isPattern]
  | run r => cases r <;> grind [children, ofOption, isPattern]
  | runItem i => cases i <;> grind [children, ofOption, isPattern]
  | literal l => cases l <;> grind [children, isPattern]
  | _ => grind [children, ofOption, isPattern, isPattern_ofKey, isPattern_ofAlternative]

section Places

variable {n c : Node} {ms : List Mark} {ts rest : List Token}

private theorem exists_before {l : Lexeme} {follow : Follow} {front behind : List Mark}
    (hl : l ≠ .symbol .colon)
    (h : SpelledAll true (front ++ ms ++ .lexeme l follow :: behind) ts rest) :
    ∃ fs us bs, ts = fs ++ us ++ bs ∧
      SpelledAll true ms us (bs ++ rest) ∧ Token.colonNext (bs ++ rest) = false := by
  obtain ⟨xs, bs, rfl, hxs, hbs⟩ := spelledAll_append.1 h
  obtain ⟨fs, us, rfl, -, hus⟩ := spelledAll_append.1 hxs
  obtain ⟨t, ys, rfl, rfl, -⟩ := hbs.lexeme
  exact ⟨fs, us, t :: ys, rfl, hus, Token.colonNext_cons hl⟩

private theorem Holds.written (h : n.Holds c) (hts : n.Written ts rest)
    (hnext : n.isPattern = true → Token.colonNext rest = false) : ∃ fs us bs, ts = fs ++ us ++ bs ∧
      c.Written us (bs ++ rest) ∧ Token.colonNext (bs ++ rest) = false := by
  cases h with
  | binding span p value =>
    change SpelledAll true (Decl.marks _) ts rest at hts
    rw [Decl.marks, spelledAll_singleton, Spelled, List.append_assoc] at hts
    exact exists_before (by decide) hts.2
  | arm a =>
    obtain ⟨p, guard, body, span⟩ := a
    change SpelledAll true (Arm.marks _) ts rest at hts
    cases guard with
    | none =>
      rw [Arm.marks, spelledAll_singleton, Spelled, List.append_nil, List.append_assoc] at hts
      exact @exists_before p.marks ts rest _ _ [] _ (by decide) hts.2
    | some g =>
      rw [Arm.marks, spelledAll_singleton, Spelled, List.append_assoc, List.append_assoc] at hts
      exact @exists_before p.marks ts rest _ _ [] _ (by decide) hts.2
  | @element span ps p hp =>
    change SpelledAll true (Pattern.marks _) ts rest at hts
    rw [Pattern.marks, spelledAll_singleton, Spelled, Pattern.marksEach_eq_map] at hts
    exact (rows_listed (by decide) hts.2).written p hp
  | @field span fields f hf =>
    change SpelledAll true (Pattern.marks _) ts rest at hts
    rw [Pattern.marks, spelledAll_singleton, Spelled, FieldPattern.marksEach_eq_map] at hts
    exact (rows_listed (by decide) hts.2).written f hf
  | value key p span =>
    change SpelledAll true (FieldPattern.marks _) ts rest at hts
    rw [FieldPattern.marks, spelledAll_singleton, Spelled] at hts
    obtain ⟨us, vs, rfl, -, hvs⟩ := spelledAll_append.1 hts.2
    obtain ⟨t, ws, rfl, -, hws⟩ := hvs.lexeme
    exact ⟨us ++ [t], ws, [], by simp, hws, hnext rfl⟩

private theorem Ends.inExcerpt {source : String} (h : n.Ends source) : n.InExcerpt source := by
  obtain ⟨text, offset, he, front, ts, behind, htokens, hts, -⟩ := h
  exact ⟨text, offset, he, front, ts, behind, htokens, hts⟩

private theorem Ends.children {source : String} (h : n.Ends source) :
    ∀ c ∈ n.children, c.Ends source := by
  intro c hc
  by_cases hpattern : c.isPattern = true
  · obtain ⟨text, offset, he, front, ts, behind, htokens, hts, hnext⟩ := h
    obtain ⟨fs, us, bs, rfl, hus, hbs⟩ := (holds_of_child hc hpattern).written hts hnext
    exact ⟨text, offset, he, front ++ fs, us, bs ++ behind, by simp [htokens], hus, fun _ => hbs⟩
  · obtain ⟨text, offset, he, front, ts, behind, htokens, hts⟩ := h.inExcerpt.children.1 c hc
    exact ⟨text, offset, he, front, ts, behind, htokens, hts, fun h => absurd h hpattern⟩

end Places

end Node

private theorem Program.Below.ends {source : String} {limit : Nat} {n : Node}
    (h : (parse source limit).1.Below n) :
    n.Ends source := by
  induction h with
  | @item i hi =>
    obtain ⟨text, offset, he, front, ts, behind, htokens, hts⟩ := (parse_items source limit).1 i hi
    exact ⟨text, offset, he, front, ts, behind, htokens, hts, fun h => absurd h Bool.false_ne_true⟩
  | child _ hc ih => exact ih.children _ hc

/-- A pattern of a program binds, in order and with repetitions, the identifiers among the tokens of
its text that lie within its span and have no colon behind them, but for those spelled `_` that
stand for no key of an object. -/
theorem Pattern.bindings_written (source : String) (limit : Nat) {p : Pattern}
    (hp : (parse source limit).1.Below (.pattern p)) : ∃ text offset, Excerpt source text offset ∧
      (∃ front ts behind, Excerpt.tokens text offset = front ++ ts ++ behind ∧
      (Node.pattern p).Written ts behind) ∧
      p.bindings = ((Token.identifiers (Excerpt.tokens text offset) []).filter p.takes).map
        (·.1.text) := by
  obtain ⟨text, offset, he, front, ts, behind, htokens, hts, hnext⟩ := hp.ends
  have horder := htokens ▸ Excerpt.inOrder text offset
  have hfits : Fits (.plain source (parse source limit).2) (parse source limit).1 :=
    fits_parse (fun _ _ => inferInstance) (List.Subset.refl _)
  have hwellFormed : (parse source limit).1.Everywhere (Node.WellFormed source) := fun i hi =>
    (hfits.sound (.item i) (List.mem_flatMap.2 ⟨i, hi, List.mem_singleton_self _⟩)).wellFormed
  refine ⟨text, offset, he, ⟨front, ts, behind, htokens, hts⟩, ?_⟩
  rw [bindings_of_identifiers hts (hnext rfl) horder.left.right
    (hp.of_everywhere hwellFormed), htokens, ← horder.identifiers_within hts.covers,
    List.filter_filter]
  refine congrArg _ (List.filter_congr fun x _ => ?_)
  exact (Bool.and_comm _ _).trans (Bool.and_assoc _ _ _).symm

/-- Keys alone and with patterns, one of each spelled as a wildcard, and code in a string, in front
of a range. -/
theorem Pattern.bindings_written_of_nested :
    let source := "let \x7ba, _, b: [c, _, \"$\x7bz\x7d\"], _: 1..2, d: \x7ba\x7d\x7d = x"
    ∃ p, (parse source 8).1.Below (.pattern p) ∧ p.bindings = ["a", "_", "c", "a"] ∧ ∃ text offset,
      Excerpt source text offset ∧
        (∃ front ts behind, Excerpt.tokens text offset = front ++ ts ++ behind ∧
          (Node.pattern p).Written ts behind) ∧
        p.bindings = ((Token.identifiers (Excerpt.tokens text offset) []).filter p.takes).map
            (·.1.text) := by
  intro source
  have hfound : ((parse source 8).1.items[0]?.bind fun i => (Node.item i).at? [0, 0]).any (fun
      | .pattern p => decide (p.bindings = ["a", "_", "c", "a"])
      | _ => false) = true := by decide +kernel
  obtain ⟨n, hn, hbindings⟩ := (Option.any_eq_true _ _).1 hfound
  obtain ⟨i, hi, hn⟩ := Option.bind_eq_some_iff.1 hn
  have hbelow := (Program.Below.item (List.mem_of_getElem? hi)).at? hn
  cases n with
  | pattern p => exact ⟨p, hbelow, of_decide_eq_true hbindings, bindings_written source 8 hbelow⟩
  | _ => cases hbindings

end ApiScript
