import ApiScript.Proofs.Lexing.Lexemes
import ApiScript.Proofs.Shape.Program
import ApiScript.Proofs.Value.Literal
import ApiScript.Proofs.Value.Parts

set_option autoImplicit false
set_option relaxedAutoImplicit false

/-!
A value that is written down is matched by what it is written as. The text of a pattern and that of
an expression are read apart, so the trees are held against each other by their lexemes: where the
expression has a value, the pattern stops where the expression does, and what it is made of matches
what the value is made of.
-/

namespace ApiScript

open Mark

section Begin

variable {source : String} {ls : List Lexeme}

private theorem Lexeme.signed_begins (negative : Bool) {found : Lexeme}
    (hfound : found.isLiteral = true) :
    ∃ l rest, Lexeme.signed negative found = l :: rest ∧
    (l = .symbol .minus ∨ l.isLiteral = true) := by
  cases negative
  · exact ⟨found, [], rfl, .inr hfound⟩
  · exact ⟨.symbol .minus, [found], rfl, .inl rfl⟩

private theorem Lexeme.signed_inj {negative negative' : Bool} {found found' : Lexeme}
    {vs vs' : List Lexeme} (hfound : found.isLiteral = true) (hfound' : found'.isLiteral = true)
    (h : Lexeme.signed negative found ++ vs = Lexeme.signed negative' found' ++ vs') :
    negative = negative' ∧ found = found' ∧ vs = vs' := by
  cases negative <;> cases negative'
  · exact ⟨rfl, List.cons.inj h⟩
  · obtain rfl : found = .symbol .minus := (List.cons.inj h).1
    cases hfound
  · obtain rfl : found' = .symbol .minus := (List.cons.inj h).1.symm
    cases hfound'
  · exact ⟨rfl, List.cons.inj (List.cons.inj h).2⟩

private def Pattern.BeginsWith : Pattern → Lexeme → Prop
  | .name _, l | .wildcard _, l => ∃ text, l = .identifier text
  | .literal _, l | .range _ (some _) _ _, l => l = .symbol .minus ∨ l.isLiteral = true
  | .range _ none _ _, l => l = .symbol .range ∨ l = .symbol .rangeInclusive
  | .array _ _, l => l = .symbol .leftBracket
  | .object _ _, l => l = .symbol .leftBrace

private theorem Pattern.begins {p : Pattern}
    (hp : (Node.pattern p).Everywhere (Node.WellFormed source)) (h : SpelledBy p.marks ls) :
    ∃ l rest, ls = l :: rest ∧ p.BeginsWith l := by
  have hliteral {l : Literal} (hl : .literal l ∈ (Node.pattern p).children) {us : List Lexeme}
    (h : SpelledBy l.marks us)
      (vs : List Lexeme) :
      ∃ first rest, us ++ vs = first :: rest ∧
      (first = .symbol .minus ∨ first.isLiteral = true) := by
    obtain ⟨negative, found, rfl, hfound, -⟩ := l.value_of_spelled (hp.children _ hl).here.formed h
    obtain ⟨first, rest, hrest, hfirst⟩ := Lexeme.signed_begins negative hfound
    exact ⟨first, rest ++ vs, by rw [hrest, List.cons_append], hfirst⟩
  cases p with
  | name n =>
    rw [Pattern.marks, Name.marks] at h
    obtain ⟨rest, rfl, -⟩ := h.node.node.lexeme
    exact ⟨_, rest, rfl, _, rfl⟩
  | wildcard s =>
    rw [Pattern.marks] at h
    obtain ⟨rest, rfl, -⟩ := h.node.lexeme
    exact ⟨_, rest, rfl, _, rfl⟩
  | literal l =>
    rw [Pattern.marks] at h
    obtain ⟨first, rest, hfirst⟩ := hliteral (List.mem_singleton_self _) h.node []
    rw [List.append_nil] at hfirst
    exact ⟨first, rest, hfirst⟩
  | array s es =>
    rw [Pattern.marks] at h
    obtain ⟨body, rfl, -⟩ := h.node.listed
    exact ⟨_, body, rfl, rfl⟩
  | object s fields =>
    rw [Pattern.marks] at h
    obtain ⟨body, rfl, -⟩ := h.node.listed
    exact ⟨_, body, rfl, rfl⟩
  | range s start stop inclusive =>
    rw [Pattern.marks.eq_def] at h
    cases start with
    | none =>
      cases stop <;>
      · obtain ⟨rest, rfl, -⟩ := h.node.lexeme
        exact ⟨_, rest, rfl, by cases inclusive <;> simp [BeginsWith]⟩
    | some l =>
      obtain ⟨us, vs, rfl, hus, -⟩ := h.node.split
      exact hliteral List.mem_cons_self hus vs

private theorem Pattern.opens {p : Pattern}
    (hp : (Node.pattern p).Everywhere (Node.WellFormed source)) : Opens p.marks := by
  intro ls h
  obtain ⟨l, rest, rfl, hl⟩ := p.begins hp h
  refine ⟨l, rest, rfl, ?_⟩
  cases p with
  | name | wildcard =>
    obtain ⟨text, rfl⟩ := hl
    exact ⟨nofun, nofun⟩
  | literal =>
    constructor <;> rintro rfl <;> rcases hl with hl | hl <;> cases hl
  | array | object =>
    obtain rfl : l = _ := hl
    exact ⟨by decide, by decide⟩
  | range s start =>
    cases start <;> constructor <;> rintro rfl <;> rcases hl with hl | hl <;> cases hl

private theorem Expr.begins {e : Expr} (he : (Node.expr e).Everywhere (Node.WellFormed source))
    {v : Value} (hv : Value.ofExpr? e = some v) (h : SpelledBy e.marks ls) :
    ∃ l rest, ls = l :: rest ∧
      ((∃ m, e = .literal m) ∧ (l = .symbol .minus ∨ l.isLiteral = true) ∨ l = .symbol .leftParen ∨
        (∃ s es, e = .array s es) ∧ l = .symbol .leftBracket ∨ (∃ o, e = .object o) ∧
        l = .symbol .leftBrace) := by
  cases e with
  | literal l =>
    rw [Expr.marks] at h
    obtain ⟨negative, found, rfl, hfound, -⟩ :=
      l.value_of_spelled (he.children _ (List.mem_singleton_self _)).here.formed h.node
    obtain ⟨first, rest, hrest, hfirst⟩ := Lexeme.signed_begins negative hfound
    exact ⟨first, rest, hrest, .inl ⟨⟨l, rfl⟩, hfirst⟩⟩
  | paren s inner =>
    rw [Expr.marks] at h
    obtain ⟨rest, rfl, -⟩ := h.node.lexeme
    exact ⟨_, rest, rfl, .inr (.inl rfl)⟩
  | array s es =>
    rw [Expr.marks] at h
    obtain ⟨body, rfl, -⟩ := h.node.listed
    exact ⟨_, body, rfl, .inr (.inr (.inl ⟨⟨s, es, rfl⟩, rfl⟩))⟩
  | object o =>
    obtain ⟨fields, s⟩ := o
    rw [Expr.marks, Object.marks] at h
    obtain ⟨body, rfl, -⟩ := h.node.node.listed
    exact ⟨_, body, rfl, .inr (.inr (.inr ⟨⟨_, rfl⟩, rfl⟩))⟩
  | _ => cases hv

private theorem Expr.opens {e : Expr} (he : (Node.expr e).Everywhere (Node.WellFormed source))
    {v : Value} (hv : Value.ofExpr? e = some v) : Opens e.marks := by
  intro ls h
  obtain ⟨l, rest, rfl, hl⟩ := e.begins he hv h
  refine ⟨l, rest, rfl, ?_⟩
  rcases hl with ⟨-, hl⟩ | rfl | ⟨-, rfl⟩ | ⟨-, rfl⟩
  · constructor <;> rintro rfl <;> rcases hl with hl | hl <;> cases hl
  all_goals exact ⟨by decide, by decide⟩

end Begin

section Agree

variable {source source' : String}

private theorem Literal.agree_pattern {l : Literal} (hl : l.Faithful source) {v : Value}
    (hv : Value.ofLiteral? l = some v) {p : Pattern}
    (hp : (Node.pattern p).Everywhere (Node.WellFormed source')) :
    Agree l.marks p.marks (p.matches v = true) := by
  intro us vs us' vs' hus hus' hsame hvs _
  obtain ⟨negative, found, rfl, hfound, hvalue⟩ := l.value_of_spelled hl hus
  have hgenuine : found.Genuine :=
    hus.genuine found (List.mem_append_right _ (List.mem_singleton_self _))
  have hself : v.equivalent v = true := found.equivalent_value hgenuine (hvalue.symm.trans hv)
  obtain ⟨first, rest, hsigned, hfirst⟩ := Lexeme.signed_begins negative hfound
  have hbegins : p.BeginsWith first := by
    obtain ⟨first', rest', rfl, hbegins⟩ := p.begins hp hus'
    rw [hsigned] at hsame
    exact (List.cons.inj hsame).1 ▸ hbegins
  cases p with
  | name | wildcard =>
    obtain ⟨text, rfl⟩ := hbegins
    rcases hfirst with hfirst | hfirst <;> cases hfirst
  | array | object =>
    obtain rfl : first = _ := hbegins
    rcases hfirst with hfirst | hfirst <;> cases hfirst
  | literal l' =>
    rw [Pattern.marks] at hus'
    obtain ⟨negative', found', rfl, hfound', hvalue'⟩ :=
      l'.value_of_spelled (hp.children _ (List.mem_singleton_self _)).here.formed hus'.node
    obtain ⟨rfl, rfl, -⟩ := Lexeme.signed_inj hfound hfound' hsame
    refine ⟨rfl, ?_⟩
    rw [Pattern.matches, hvalue', ← hvalue, hv]
    exact hself
  | range s start stop inclusive =>
    cases start with
    | none =>
      rcases hbegins with rfl | rfl <;> rcases hfirst with hfirst | hfirst <;> cases hfirst
    | some l' =>
      rw [Pattern.marks.eq_def] at hus'
      obtain ⟨us', ws, rfl, hstart, hws⟩ := hus'.node.split
      obtain ⟨mark, behind, rfl, hmark⟩ : ∃ mark behind, ws = mark :: behind ∧
          (mark = .symbol .range ∨ mark = .symbol .rangeInclusive) := by
        cases stop <;>
        · obtain ⟨behind, rfl, -⟩ := hws.lexeme
          exact ⟨_, behind, rfl, by cases inclusive <;> simp⟩
      obtain ⟨negative', found', rfl, hfound', -⟩ :=
        l'.value_of_spelled (hp.children _ List.mem_cons_self).here.formed hstart
      rw [List.append_assoc] at hsame
      obtain ⟨-, -, rfl⟩ := Lexeme.signed_inj hfound hfound' hsame
      obtain ⟨-, hrange, hinclusive⟩ := hvs mark rfl
      rcases hmark with rfl | rfl
      · exact absurd rfl hrange
      · exact absurd rfl hinclusive

private theorem Key.spelled {key : Key} {ls : List Lexeme} (h : SpelledBy key.marks ls) :
    (∃ n, key = .name n ∧ ls = [.identifier n.text]) ∨ ∃ kind raw, ls = [.string kind raw] := by
  cases key with
  | name n =>
    rw [Key.marks, Name.marks] at h
    obtain ⟨rest, rfl, hnil⟩ := h.node.lexeme
    obtain rfl := hnil.nil
    exact .inl ⟨n, rfl, rfl⟩
  | string string =>
    obtain ⟨quote, parts, s⟩ := string
    rw [Key.marks, StringLiteral.marks] at h
    obtain ⟨ts, rest, hspelled, rfl, -⟩ := h.node
    rw [spelledAll_singleton] at hspelled
    cases quote with
    | double =>
      obtain ⟨t, raw, _, rfl, hlexeme, -⟩ := hspelled
      exact .inr ⟨_, raw, congrArg ([·]) hlexeme⟩
    | single =>
      obtain ⟨t, raw, _, rfl, hlexeme, -⟩ := hspelled
      exact .inr ⟨_, raw, congrArg ([·]) hlexeme⟩

private theorem Field.opens (f : Field) : Opens f.marks := by
  obtain ⟨key, value, s⟩ := f
  intro ls h
  rw [Field.marks, List.append_assoc] at h
  obtain ⟨us, vs, rfl, hkey, -⟩ := h.node.split
  rcases Key.spelled hkey with ⟨n, -, rfl⟩ | ⟨kind, raw, rfl⟩
  · exact ⟨_, vs, rfl, nofun, nofun⟩
  · exact ⟨_, vs, rfl, nofun, nofun⟩

private theorem FieldPattern.spelled {p : FieldPattern} {ls : List Lexeme}
    (h : SpelledBy p.marks ls) :
    ∃ rest, ls = .identifier p.key.text :: rest ∧ (p.pattern = none ∧ rest = [] ∨
      ∃ q behind, p.pattern = some q ∧ rest = .symbol .colon :: behind ∧
      SpelledBy q.marks behind) := by
  obtain ⟨key, pattern, s⟩ := p
  rw [FieldPattern.marks.eq_def] at h
  obtain ⟨us, vs, rfl, hkey, hvs⟩ := h.node.split
  rw [Name.marks] at hkey
  obtain ⟨rest, rfl, hnil⟩ := hkey.node.lexeme
  obtain rfl := hnil.nil
  refine ⟨vs, rfl, ?_⟩
  cases pattern with
  | none => exact .inl ⟨rfl, hvs.nil⟩
  | some q =>
    obtain ⟨behind, rfl, hq⟩ := hvs.lexeme
    exact .inr ⟨q, behind, rfl, rfl, hq⟩

private theorem FieldPattern.opens (p : FieldPattern) : Opens p.marks := by
  intro ls h
  obtain ⟨rest, rfl, -⟩ := FieldPattern.spelled h
  exact ⟨_, rest, rfl, nofun, nofun⟩

private theorem Field.agree_pattern {f : Field} {p : FieldPattern} {P : Pattern → Prop}
    (h : ∀ q ∈ p.pattern, Agree f.value.marks q.marks (P q)) :
    Agree f.marks p.marks (f.key.name? = some p.key.text ∧ ∀ q ∈ p.pattern, P q) := by
  intro us vs us' vs' hus hus' hsame hvs hvs'
  obtain ⟨key, value, s⟩ := f
  rw [Field.marks, List.append_assoc] at hus
  obtain ⟨us, ws, rfl, hkey, hws⟩ := hus.node.split
  obtain ⟨ws, rfl, hvalue⟩ := hws.lexeme
  obtain ⟨rest, rfl, hrest⟩ := FieldPattern.spelled hus'
  rcases Key.spelled hkey with ⟨n, rfl, rfl⟩ | ⟨kind, raw, rfl⟩
  · simp only [List.cons_append, List.nil_append, List.cons.injEq, Lexeme.identifier.injEq] at hsame
    obtain ⟨htext, hsame⟩ := hsame
    rcases hrest with ⟨-, rfl⟩ | ⟨q, behind, hq, rfl, hbehind⟩
    · obtain rfl : _ = vs' := hsame
      exact absurd rfl (hvs' (.symbol .colon) rfl).1
    · obtain ⟨rfl, hP⟩ := h q hq hvalue hbehind (List.cons.inj hsame).2 hvs hvs'
      refine ⟨by rw [htext]; rfl, congrArg some htext, fun r hr => ?_⟩
      rwa [Option.some.inj (hq.symm.trans hr)] at hP
  · cases (List.cons.inj hsame).1

private theorem Pattern.bracketed {p : Pattern}
    (hp : (Node.pattern p).Everywhere (Node.WellFormed source)) {opener : Symbol}
    {body vs us' vs' : List Lexeme} (hopener : opener ∈ [.leftParen, .leftBracket, .leftBrace])
    (h : SpelledBy p.marks us') (hsame : .symbol opener :: body ++ vs = us' ++ vs') :
    opener = .leftBracket ∧ (∃ s ps, p = .array s ps) ∨
      opener = .leftBrace ∧ ∃ s fields, p = .object s fields := by
  obtain ⟨first, rest, rfl, hbegins⟩ := p.begins hp h
  obtain rfl : Lexeme.symbol opener = first := (List.cons.inj hsame).1
  cases p with
  | name | wildcard =>
    obtain ⟨text, htext⟩ := hbegins
    cases htext
  | literal =>
    rcases hbegins with hbegins | hbegins <;> cases hbegins
    exact absurd hopener (by decide)
  | range s start =>
    cases start <;> rcases hbegins with hbegins | hbegins <;> cases hbegins <;>
      exact absurd hopener (by decide)
  | array s ps => exact .inl ⟨Lexeme.symbol.inj hbegins, s, ps, rfl⟩
  | object s fields => exact .inr ⟨Lexeme.symbol.inj hbegins, s, fields, rfl⟩

private theorem Expr.agree_array {es : List Expr} {ps : List Pattern} {vs : List Value}
    (hvs : Value.ofExprs? es = some vs) (hes : ∀ e ∈ es, Opens e.marks)
    (hps : ∀ p ∈ ps, Opens p.marks) (h : ∀ e ∈ es, ∀ p ∈ ps,
    Agree e.marks p.marks (∀ v, Value.ofExpr? e = some v → p.matches v = true)) (s s' : Span) :
    Agree (Expr.array s es).marks (Pattern.array s' ps).marks
      ((Pattern.array s' ps).matches (.array vs) = true) := by
  rw [Expr.marks, Pattern.marks, Expr.marksEach_eq_map, Pattern.marksEach_eq_map]
  refine (agree_listed (.inl rfl) hes hps h).node.imp fun hall => ?_
  rw [Pattern.matches]
  exact Pattern.matchesAll_of_forall₂ hall hvs

private theorem Expr.agree_object {fields : List Field} {ps : List FieldPattern}
    {entries : List (String × Value)} (hentries : Value.ofFields? fields = some entries)
    (hkeys : (entries.map Prod.fst).Nodup) (h : ∀ f ∈ fields, ∀ p ∈ ps, ∀ q ∈ p.pattern,
      Agree f.value.marks q.marks (∀ v, Value.ofExpr? f.value = some v → q.matches v = true))
    (s s' : Span) : Agree (Expr.object ⟨fields, s⟩).marks (Pattern.object s' ps).marks
      ((Pattern.object s' ps).matches (.object entries) = true) := by
  rw [Expr.marks, Object.marks, Pattern.marks, Field.marksEach_eq_map,
    FieldPattern.marksEach_eq_map]
  intro us vs us' vs' hus hus' hsame hend hend'
  refine (agree_listed (.inr rfl) (fun f _ => f.opens) (fun p _ => p.opens)
    (fun f hf p hp => Field.agree_pattern (h f hf p hp))
    hus.node.node hus'.node hsame hend hend').imp_right fun hall => ?_
  rw [Pattern.matches]
  exact Pattern.matchesFields_of_forall₂ hall hentries hkeys

/-- A pattern that is written as an expression with a value matches the value. -/
private theorem Expr.agree_pattern {e : Expr}
    (he : (Node.expr e).Everywhere (Node.WellFormed source)) {v : Value}
    (hv : Value.ofExpr? e = some v) (hkeys : v.DistinctKeys) {p : Pattern}
    (hp : (Node.pattern p).Everywhere (Node.WellFormed source')) :
    Agree e.marks p.marks (p.matches v = true) := by
  have hvalue {e : Expr} {v : Value} {p : Pattern} (hv : Value.ofExpr? e = some v)
      (h : Agree e.marks p.marks (p.matches v = true)) :
      Agree e.marks p.marks (∀ w, Value.ofExpr? e = some w → p.matches w = true) :=
    h.imp fun hmatches w hw => Option.some.inj (hv.symm.trans hw) ▸ hmatches
  induction e using Value.expr_induction generalizing v p with
  | literal l =>
    rw [Value.ofExpr?] at hv
    intro us vs us' vs' hus
    rw [Expr.marks] at hus
    exact l.agree_pattern (he.children _ (List.mem_singleton_self _)).here.formed hv hp hus.node
  | paren s inner =>
    intro us vs us' vs' hus hus' hsame _ _
    rw [Expr.marks] at hus
    obtain ⟨body, rfl, -⟩ := hus.node.lexeme
    rcases p.bracketed hp (by decide) hus' hsame with ⟨hopener, -⟩ | ⟨hopener, -⟩ <;> cases hopener
  | array s es ih =>
    rw [Value.ofExpr?] at hv
    obtain ⟨vs, hvs, rfl⟩ := Option.map_eq_some_iff.1 hv
    have hes (a : Expr) (ha : a ∈ es) : (Node.expr a).Everywhere (Node.WellFormed source) :=
      he.children _ (List.mem_map_of_mem ha)
    intro us ws us' ws' hus hus' hsame hend hend'
    obtain ⟨s', ps, rfl⟩ : ∃ s' ps, p = .array s' ps := by
      have hlist := hus
      rw [Expr.marks] at hlist
      obtain ⟨body, rfl, -⟩ := hlist.node.listed
      rcases p.bracketed hp (by decide) hus' hsame with ⟨-, harray⟩ | ⟨hopener, -⟩
      · exact harray
      · cases hopener
    have hps (q : Pattern) (hq : q ∈ ps) : (Node.pattern q).Everywhere (Node.WellFormed source') :=
      hp.children _ (List.mem_map_of_mem hq)
    refine Expr.agree_array hvs (fun a ha => ?_) (fun q hq => q.opens (hps q hq))
      (fun a ha q hq => ?_) s s' hus hus'
      hsame hend hend'
    · obtain ⟨w, -, hw⟩ := Value.exists_of_ofExprs? hvs a ha
      exact a.opens (hes a ha) hw
    · obtain ⟨w, hmem, hw⟩ := Value.exists_of_ofExprs? hvs a ha
      exact hvalue hw (ih a ha (hes a ha) hw (hkeys.of_mem w hmem) (hps q hq))
  | object fields s ih =>
    rw [Value.ofExpr?] at hv
    obtain ⟨entries, hentries, rfl⟩ := Option.map_eq_some_iff.1 hv
    intro us ws us' ws' hus hus' hsame hend hend'
    obtain ⟨s', ps, rfl⟩ : ∃ s' ps, p = .object s' ps := by
      have hlist := hus
      rw [Expr.marks, Object.marks] at hlist
      obtain ⟨body, rfl, -⟩ := hlist.node.node.listed
      rcases p.bracketed hp (by decide) hus' hsame with ⟨hopener, -⟩ | ⟨-, hobject⟩
      · cases hopener
      · exact hobject
    refine Expr.agree_object hentries hkeys.nodup (fun f hf r hr q hq => ?_) s s' hus hus' hsame
      hend hend'
    obtain ⟨w, hmem, hw⟩ := Value.exists_of_ofFields? hentries f hf
    refine hvalue hw (ih f hf ?_ hw (hkeys.of_mem w hmem) ?_)
    · have hfield := (he.children _ (List.mem_singleton_self _)).children _ (List.mem_map_of_mem hf)
      exact hfield.children _ (List.mem_cons_of_mem _ (List.mem_singleton_self _))
    · have hfield := hp.children _ (List.mem_map_of_mem hr)
      refine hfield.children _ (List.mem_cons_of_mem _ ?_)
      rw [Option.mem_def.1 hq]
      exact List.mem_singleton_self _
  | none e hnone => cases hnone.symm.trans hv

end Agree

section Texts

open Grammar

private theorem genuine_of_log_nil {source : String} (h : (State.ofString source 0).log = []) :
    ∀ t ∈ (Lexer.ofString source 0).tokenizeFiltered.1, t.lexeme.Genuine := by
  rw [← State.ofString_after h]
  exact fun t ht => (State.sound_ofString source 0).genuine t (State.Sound.mem_after ht)

private theorem parse_spelledBy {source : String} {limit : Nat} (h : (parse source limit).2 = []) :
    SpelledBy (parse source limit).1.marks (Lexer.lexemes source.toList) := by
  obtain ⟨_, hstart, -⟩ := listed_of_parse h
  exact ⟨_, [], parse_keeps_every_token source limit h, Lexer.map_tokenizeFiltered source 0,
    genuine_of_log_nil hstart⟩

private theorem parseExpr_spelledBy {text : String} {e : Expr} (h : parseExpr text = (some e, [])) :
    (Lexer.ofString text 0).tokenize.2 = [] ∧ SpelledBy e.marks (Lexer.lexemes text.toList) := by
  obtain ⟨finish, hread, hlog⟩ := parseExpr_eq_some.1 h
  obtain ⟨-, he, hend⟩ := reads_wholeExpression.1 hread
  obtain ⟨ts, hm, hspelled⟩ :=
    (writes_enter Session.defaultLimit Session.defaultLimit).expression he
  have hstart : (State.ofString text 0).log = [] := by
    have hprefix := hm.log
    rwa [hlog, List.prefix_nil] at hprefix
  have hafter : finish.after = [] := List.isEmpty_iff.1 hend
  have hts : ts = (Lexer.ofString text 0).tokenizeFiltered.1 := by
    rw [← State.ofString_after hstart, hm.after, hafter, List.append_nil]
  refine ⟨List.map_eq_nil_iff.1 hstart, ts, finish.after, ?_, ?_, ?_⟩
  · exact hspelled (State.sound_ofString text 0) false (.inr (hlog.trans hstart.symm))
  · rw [hts, Lexer.map_tokenizeFiltered]
  · rw [hts]
    exact genuine_of_log_nil hstart

private theorem lexemes_binding {text : String}
    (h : (Lexer.ofString text 0).tokenize.2 = []) : ∃ rest,
    Lexer.lexemes ("let " ++ text ++ " = 0").toList = .keyword .let_ ::
    (Lexer.lexemes text.toList ++ rest) ∧
      (rest = [] ∨ rest = [.symbol .assign, .number .integer "0"]) := by
  have htext : ("let " ++ text ++ " = 0").toList =
      (Lexeme.keyword .let_).spelling.toList ++ ' ' :: (text.toList ++ ' ' :: "= 0".toList) := by
    simp [String.toList_append, Lexeme.spelling, Keyword.spelling]
  have hlegible : (Lexeme.keyword .let_).Legible (' ' :: (text.toList ++ ' ' :: "= 0".toList)) := by
    refine Lexeme.WellSpelled.legible trivial ?_
    rintro c ⟨⟩
    decide
  rw [htext, Lexer.lexemes_legible hlegible rfl, Lexer.lexemes_blank _ rfl]
  rcases Lexer.lexemes_before rfl (show '\n' ∉ ' ' :: "= 0".toList by decide) h with hsame | hbehind
  · exact ⟨[], by rw [hsame, List.append_nil], .inl rfl⟩
  · exact ⟨_, by rw [hbehind], .inr (by decide +kernel)⟩

end Texts

/-- A value matches what it is written as: where a text is a pattern in a binding and an expression
by itself, both without diagnostics, and the expression has a value in which no object repeats a
key, the pattern matches the value. -/
theorem Pattern.matches_written {text : String} {limit : Nat} {span area : Span} {p : Pattern}
    {initial e : Expr} {items : List Item} {v : Value}
    (hbinding : parse ("let " ++ text ++ " = 0") limit =
      (⟨.decl (.binding span p initial) :: items, area⟩, []))
    (hexpr : parseExpr text = (some e, [])) (hvalue : Value.ofExpr? e = some v)
      (hkeys : v.DistinctKeys) :
    p.matches v = true := by
  obtain ⟨herrors, hus⟩ := parseExpr_spelledBy hexpr
  obtain ⟨rest, hlexemes, hrest⟩ := lexemes_binding herrors
  have hspelled := parse_spelledBy (congrArg Prod.snd hbinding)
  have hwellFormed := parse_wellFormed ("let " ++ text ++ " = 0") limit
  rw [hbinding] at hspelled hwellFormed
  rw [hlexemes, Program.marks, Item.marksAll, Item.marks, Decl.marks, List.append_assoc] at hspelled
  obtain ⟨us, others, hall, hdecl, -⟩ := hspelled.seam.split
  have hparts := hdecl.node.node
  rw [List.append_assoc, List.append_assoc, List.singleton_append] at hparts
  obtain ⟨body, rfl, hbody⟩ := hparts.lexeme
  obtain ⟨us', vs', rfl, hus', hvs'⟩ := hbody.split
  obtain ⟨zero, rfl, -⟩ := hvs'.lexeme
  have hsame : Lexer.lexemes text.toList ++ rest = us' ++ (.symbol .assign :: zero ++ others) := by
    rw [List.cons_append, List.append_assoc] at hall
    exact (List.cons.inj hall).2
  have hp : (Node.pattern p).Everywhere (Node.WellFormed ("let " ++ text ++ " = 0")) :=
    ((hwellFormed _ List.mem_cons_self).children _ (List.mem_singleton_self _)).children
      _ List.mem_cons_self
  refine (e.agree_pattern (parseExpr_wellFormed text e (by rw [hexpr]; rfl)) hvalue hkeys hp hus
    hus' hsame ?_ ?_).2
  · rcases hrest with rfl | rfl
    · exact fun l hl => absurd hl (Option.not_mem_none l)
    · rintro l ⟨⟩
      decide
  · rintro l ⟨⟩
    decide

/-- An array of a number with a sign and an object, with a comma too many and a comment. -/
theorem Pattern.matches_written_of_nested :
    let length := (Binary64.ofDecimal false 3 0).mul DurationUnit.milliseconds.inSeconds
    let v : Value := .array [.int (-2), .object [("a", .text "x"), ("b", .float length)]]
    ∃ span p initial area e,
      parse ("let " ++ "[-2, \x7ba: 'x', b: 3ms\x7d,] // c\n" ++ " = 0") 8 =
        (⟨[.decl (.binding span p initial)], area⟩, []) ∧
      parseExpr "[-2, \x7ba: 'x', b: 3ms\x7d,] // c\n" = (some e, []) ∧
      Value.ofExpr? e = some v ∧ v.DistinctKeys ∧ p.matches v = true := by
  intro length v
  have hleaf {w : Value} (hkeys : w.keys = []) (hparts : w.parts = []) : w.DistinctKeys :=
    .intro (hkeys ▸ .nil) (hparts ▸ List.forall_mem_nil _)
  have hkeys : v.DistinctKeys := by
    refine .intro .nil
      (List.forall_mem_cons.2 ⟨hleaf rfl rfl, List.forall_mem_singleton.2 (.intro (by decide) ?_)⟩)
    exact List.forall_mem_cons.2 ⟨hleaf rfl rfl, List.forall_mem_singleton.2 (hleaf rfl rfl)⟩
  obtain ⟨span, p, initial, area, hbinding⟩ : ∃ span p initial area,
      parse ("let " ++ "[-2, \x7ba: 'x', b: 3ms\x7d,] // c\n" ++ " = 0") 8 =
        (⟨[.decl (.binding span p initial)], area⟩, []) := ⟨_, _, _, _, rfl⟩
  obtain ⟨e, hexpr, hvalue⟩ : ∃ e, parseExpr "[-2, \x7ba: 'x', b: 3ms\x7d,] // c\n" = (some e, []) ∧
      Value.ofExpr? e = some v := ⟨_, rfl, rfl⟩
  exact ⟨span, p, initial, area, e, hbinding, hexpr, hvalue, hkeys,
    matches_written hbinding hexpr hvalue hkeys⟩

end ApiScript
