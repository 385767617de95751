import ApiScript.Proofs.Limit.Nesting
import ApiScript.Proofs.RoundTrip.Pattern

set_option autoImplicit false
set_option relaxedAutoImplicit false

/-!
Patterns are read back: what one is written as is read as the same pattern, whatever is nested in
it, if the limit of nesting leaves room for it. So a binding of a pattern is read back.
-/

namespace ApiScript

open Piece

private theorem Decl.layout_binding (span : Span) (p : Pattern) (l : Literal) :
    (Decl.binding span p (.literal l)).layout 0 =
    [Piece.keyword .let_, space] ++
      (p.layout 0 ++ ([space, symbol .assign, space] ++ l.layout 0)) := by
  rw [layout, Expr.layout, List.append_assoc, List.append_assoc]

namespace Grammar

variable {inner : Inner} {s t : State} {p : Pattern} {ps : List Piece} {rest : List Token}

section Follow

private theorem Parted.stops (h : Parted s.after) : s.atRangeMark = false ∧ s.atLiteral = false ∧
    s.sees (.symbol .colon) = false := by
  obtain ⟨next, behind, hafter, hnext⟩ := h
  have hcurrent : s.current? = some next.lexeme := by simp [State.current?, State.peek?, hafter]
  have hminus : next.lexeme ≠ .symbol .minus := by
    rcases hnext with hl | hl | ⟨delimiter, hl⟩
    · simp [hl]
    · simp [hl]
    · cases delimiter <;> simp [hl, Delimiter.closer]
  have hnegative : s.atNegativeNumber = false := State.atNegativeNumber_of_current? hcurrent hminus
  rcases hnext with hl | hl | ⟨delimiter, hl⟩
  · simp [State.atRangeMark, State.atLiteral, State.sees, hnegative, hcurrent, hl, Lexeme.isLiteral]
  · simp [State.atRangeMark, State.atLiteral, State.sees, hnegative, hcurrent, hl, Lexeme.isLiteral]
  · cases delimiter <;>
      simp [State.atRangeMark, State.atLiteral, State.sees, hnegative, hcurrent, hl,
      Lexeme.isLiteral, Delimiter.closer]

theorem State.current?_of_atLiteral (h : s.atLiteral = true) :
    ∃ l, s.current? = some l ∧ (l.isLiteral = true ∨ l = .symbol .minus) := by
  rcases Bool.or_eq_true_iff.1 h with h | h
  · obtain ⟨l, hl, hliteral⟩ := (Option.any_eq_true _ _).1 h
    exact ⟨l, hl, .inl hliteral⟩
  · obtain ⟨minus, _, _, hafter, hminus, -⟩ := State.atNegativeNumber_iff.1 h
    exact ⟨minus.lexeme, by simp [State.current?, State.peek?, hafter], .inr hminus⟩

theorem reads_pattern_of_atLiteral (hs : s.atLiteral = true)
    (h : Reads (literalPattern inner) s p t) :
    Reads (pattern inner) s p t := by
  obtain ⟨l, hl, hbegins⟩ := State.current?_of_atLiteral hs
  unfold pattern
  rw [reads_get_bind, hl]
  dsimp only
  split
  case h_6 =>
    rw [if_pos hs]
    exact h
  all_goals
    rename_i heq
    cases heq
    rcases hbegins with hbegins | hbegins <;> cases hbegins

end Follow

section Literals

variable {l : Literal}

private theorem readsBack_literalPattern (h : l.Writable) :
    ReadsBack (pattern inner) (l.layout 0) Parted (·.bare = (Pattern.literal l).bare) := by
  intro s rest hs hrest
  obtain ⟨l', t, hl', hbare, rfl, hlog⟩ := readsBack_literal inner h s rest hs trivial
  obtain ⟨hmark, -, -⟩ := hrest.stops
  have hread : Reads (literalPattern inner) s (.literal l') t := by
    unfold literalPattern
    rw [reads_get_bind]
    refine reads_bind.2 ⟨l', t, hl', ?_⟩
    rw [reads_get_bind, hmark]
    exact reads_pure.2 ⟨rfl, rfl⟩
  have hsame : (Pattern.literal l').bare = (Pattern.literal l).bare := by
    rw [Pattern.bare_literal, Pattern.bare_literal, hbare]
  exact ⟨_, t, reads_pattern_of_atLiteral (hs.atLiteral h) hread, hsame, rfl, hlog⟩

private theorem State.InFront.rangeMark {inclusive : Bool}
    (hs : s.InFront (Piece.rangeMark inclusive :: ps) rest) :
    s.current? = some (.symbol (if inclusive then .rangeInclusive else .range)) ∧
    s.atRangeMark = true ∧ Reads Grammar.rangeMark s inclusive s.advance ∧
    s.advance.InFront ps rest := by
  have hsees : s.sees (.symbol .rangeInclusive) = inclusive := by
    rw [hs.sees]
    cases inclusive <;> rfl
  refine ⟨hs.current?, ?_, reads_rangeMark.2 ⟨hsees.symm, rfl⟩, hs.advance⟩
  cases inclusive <;> simp [State.atRangeMark, State.sees, hs.current?]

private theorem readsBack_rangePattern {span : Span} {stop : Option Literal} {inclusive : Bool}
    (h : l.Writable) (hstop : ∀ l ∈ stop, l.Writable) :
    ReadsBack (pattern inner) ((Pattern.range span (some l) stop inclusive).layout 0) Parted
      (·.bare = (Pattern.range span (some l) stop inclusive).bare) := by
  intro s rest hs hrest
  rw [Pattern.layout_range, List.append_assoc] at hs
  obtain ⟨_, hstart⟩ := hs.append
  have hfirst : s.atLiteral = true := hstart.atLiteral h
  obtain ⟨l', t, hl', hbare, ht, hlog⟩ := (readsBack_literal inner h).before hs fun _ => trivial
  obtain ⟨-, hat, hmark, hbehind⟩ := ht.rangeMark
  cases stop with
  | none =>
    obtain rfl : t.advance.after = rest := hbehind.nil
    obtain ⟨-, hliteral, -⟩ := hrest.stops
    have hrange : Reads (literalPattern inner) s
        (.range (s.currentSpan.merge t.advance.previousSpan) (some l') none inclusive)
          t.advance := by
      simp only [literalPattern, reads_bind, reads_get, reads_ite, reads_pure, and_assoc,
        exists_and_left, exists_eq_left]
      exact ⟨l', t, hl', .inl ⟨hat, inclusive, _, hmark, .inr ⟨by simp [hliteral], rfl, rfl⟩⟩⟩
    refine ⟨_, _, reads_pattern_of_atLiteral hfirst hrange, ?_, rfl,
      (State.log_advance t).trans hlog⟩
    exact Pattern.bare_range (congrArg some hbare) rfl
  | some stop =>
    have hsecond : t.advance.atLiteral = true := hbehind.atLiteral (hstop stop rfl)
    obtain ⟨stop', u, hstop', hbare', rfl, hlog'⟩ :=
      readsBack_literal inner (hstop stop rfl) _ rest hbehind trivial
    have hrange : Reads (literalPattern inner) s
        (.range (s.currentSpan.merge u.previousSpan) (some l') (some stop') inclusive) u := by
      simp only [literalPattern, reads_bind, reads_get, reads_ite, reads_pure, and_assoc,
        exists_and_left, exists_eq_left]
      exact ⟨l', t, hl',
        .inl ⟨hat, inclusive, _, hmark, .inl ⟨hsecond, stop', u, hstop', rfl, rfl⟩⟩⟩
    refine ⟨_, u, reads_pattern_of_atLiteral hfirst hrange, ?_, rfl, ?_⟩
    · exact Pattern.bare_range (congrArg some hbare) (congrArg some hbare')
    · exact hlog'.trans ((State.log_advance t).trans hlog)

private theorem readsBack_openRangePattern {span : Span} {inclusive : Bool} (h : l.Writable) :
    ReadsBack (pattern inner) ((Pattern.range span none (some l) inclusive).layout 0) Parted
      (·.bare = (Pattern.range span none (some l) inclusive).bare) := by
  intro s rest hs hrest
  rw [Pattern.layout_range] at hs
  obtain ⟨hcurrent, -, hmark, hbehind⟩ := hs.rangeMark
  obtain ⟨l', t, hl', hbare, hafter, hlog⟩ := readsBack_literal inner h _ rest hbehind trivial
  have hread : Reads (openRangePattern inner) s
      (.range (s.currentSpan.merge l'.span) none (some l') inclusive) t := by
    unfold openRangePattern
    rw [reads_get_bind]
    refine reads_bind.2 ⟨inclusive, _, hmark, ?_⟩
    rw [reads_get_bind, hbehind.atLiteral h]
    exact reads_bind.2 ⟨l', t, hl', reads_pure.2 ⟨rfl, rfl⟩⟩
  have hpattern :
      Reads (pattern inner) s
        (.range (s.currentSpan.merge l'.span) none (some l') inclusive) t := by
    unfold pattern
    rw [reads_get_bind, hcurrent]
    cases inclusive <;> exact hread
  exact ⟨_, t, hpattern, Pattern.bare_range rfl (congrArg some hbare), hafter,
    hlog.trans (State.log_advance s)⟩

end Literals

section Lists

variable {limit room : Nat}

theorem not_closer_of_reads_pattern (delimiter : Delimiter)
    (h : Reads (enter limit room .pattern) s p t) :
    s.sees delimiter.closer = false := by
  rw [Bool.eq_false_iff]
  intro hcloser
  have hcurrent := State.current?_of_sees hcloser
  cases room with
  | zero => cases h
  | succ room =>
    change Reads (pattern (enter limit room)) s p t at h
    have hliteral : s.atLiteral = false := by
      have hnegative : s.atNegativeNumber = false :=
        State.atNegativeNumber_of_current? hcurrent (by cases delimiter <;> simp [Delimiter.closer])
      cases delimiter <;>
        simp [State.atLiteral, hcurrent, hnegative, Delimiter.closer, Lexeme.isLiteral]
    unfold pattern at h
    rw [reads_get_bind, hcurrent, hliteral] at h
    cases delimiter <;> exact reads_throw.1 h

theorem not_closer_of_reads_fieldPattern (delimiter : Delimiter) {f : FieldPattern}
    (h : Reads (fieldPattern inner) s f t) : s.sees delimiter.closer = false := by
  obtain ⟨key, u, hkey, -⟩ := reads_bind.1 h
  obtain ⟨hcurrent, -⟩ := reads_name.1 hkey
  cases delimiter <;> simp [State.sees, hcurrent, Delimiter.closer]

private theorem map_eq_of_forall₂ {α β γ : Type} {f : α → γ} {g : β → γ} {as : List α} {bs : List β}
    (h : List.Forall₂ (fun a b => g b = f a) as bs) : bs.map g = as.map f := by
  induction h with
  | nil => rfl
  | cons hab _ ih => rw [List.map_cons, List.map_cons, hab, ih]

private theorem readsBack_bracketed {α β : Type} {delimiter : Delimiter} {opener : Symbol}
    {item : Parser α} [Advances item] {layout : β → List Piece} {wanted : β → α → Prop}
    {bs : List β} (span : Span)
    (hopen : ∀ {s t : State} {a : α}, Reads item s a t → s.sees delimiter.closer = false)
    (hitem : ∀ b ∈ bs, ReadsBack item (layout b) Parted (wanted b)) :
    ReadsBack (bracketed delimiter span item)
      (symbol opener :: (commaSeparated layout bs ++ [lexeme delimiter.closer])) (fun _ => True)
      fun r => List.Forall₂ wanted bs r.1 := by
  intro s rest hs _
  obtain ⟨r, t, hr, hwanted, hafter, hlog⟩ :=
    readsBack_delimited hopen span hitem s.advance rest hs.advance trivial
  exact ⟨r, t, reads_bracketed.2 hr, hwanted, hafter, hlog.trans (State.log_advance s)⟩

private theorem readsBack_identifier {text : String} {wanted : Pattern → Prop}
    (h : ∀ span, wanted (if text = "_" then .wildcard span else .name ⟨text, span⟩)) :
    ReadsBack (pattern inner) [lexeme (.identifier text)] Parted wanted := by
  intro s rest hs _
  have hread : Reads (pattern inner) s
      (if text = "_" then .wildcard s.currentSpan else .name ⟨text, s.currentSpan⟩) s.advance := by
    unfold pattern
    rw [reads_get_bind, hs.current?]
    exact reads_bind.2 ⟨(), _, reads_advance.2 rfl, reads_pure.2 ⟨rfl, rfl⟩⟩
  exact ⟨_, _, hread, h _, hs.advance.nil, State.log_advance s⟩

private theorem readsBack_field {f : FieldPattern} (hkey : f.key.Plain)
    (h : ∀ p ∈ f.pattern, ReadsBack (inner .pattern) (p.layout 0) Parted (·.bare = p.bare)) :
    ReadsBack (fieldPattern inner) (f.layout 0) Parted (·.bare = f.bare) := by
  intro s rest hs hrest
  obtain ⟨key, pattern, span⟩ := f
  have hname (hcurrent : s.current? = some key.lexeme) :
      Reads (name .patternFieldName) s ⟨key.text, s.currentSpan⟩ s.advance := by
    rw [Name.lexeme, hkey.identifier] at hcurrent
    exact reads_name.2 ⟨hcurrent, rfl, rfl⟩
  cases pattern with
  | none =>
    have hafter : s.advance.after = rest := hs.advance.nil
    have hcolon : s.advance.sees (.symbol .colon) = false := by
      rw [← hafter] at hrest
      exact hrest.stops.2.2
    have hread :
        Reads (fieldPattern inner) s ⟨⟨key.text, s.currentSpan⟩, none, s.currentSpan⟩ s.advance :=
      reads_bind.2 ⟨_, _, hname hs.current?,
        reads_bind.2 ⟨false, _, reads_accept.2 (.inr ⟨by simp [hcolon], rfl, rfl⟩),
        reads_pure.2 ⟨rfl, rfl⟩⟩⟩
    exact ⟨_, _, hread, FieldPattern.bare_mk rfl rfl, hafter, State.log_advance s⟩
  | some p =>
    have hcolon : s.advance.InFront (symbol .colon :: space :: p.layout 0) rest := hs.advance
    obtain ⟨p', t, hp', hbare, hafter, hlog⟩ :=
      h p rfl s.advance.advance rest hcolon.advance.space hrest
    have hread :
        Reads (fieldPattern inner) s ⟨⟨key.text, s.currentSpan⟩, some p',
        s.currentSpan.merge p'.span⟩ t :=
      reads_bind.2 ⟨_, _, hname hs.current?,
        reads_bind.2 ⟨true, _, reads_accept.2 (.inl ⟨hcolon.sees _, rfl, rfl⟩),
          reads_bind.2 ⟨p', t, hp', reads_pure.2 ⟨rfl, rfl⟩⟩⟩⟩
    refine ⟨_, t, hread, FieldPattern.bare_mk rfl (congrArg some hbare), hafter, ?_⟩
    rw [hlog, State.log_advance, State.log_advance]

variable [∀ e, Advances (inner e)]

private theorem readsBack_array {span : Span} {ps : List Pattern}
    (hopen : ∀ {s t : State} {p : Pattern}, Reads (inner .pattern) s p t →
      s.sees Delimiter.bracket.closer = false)
    (h : ∀ p ∈ ps, ReadsBack (inner .pattern) (p.layout 0) Parted (·.bare = p.bare)) :
    ReadsBack (pattern inner) ((Pattern.array span ps).layout 0) Parted
        (·.bare = (Pattern.array span ps).bare) := by
  intro s rest hs hrest
  rw [Pattern.layout, Pattern.layoutAll_eq] at hs
  have hcurrent : s.current? = some (.symbol .leftBracket) := hs.current?
  obtain ⟨r, t, hr, hall, hafter, hlog⟩ :=
    readsBack_bracketed s.currentSpan hopen h s rest hs trivial
  have hread : Reads (pattern inner) s (.array (s.currentSpan.merge r.2) r.1) t := by
    unfold pattern
    rw [reads_get_bind, hcurrent]
    exact reads_bind.2 ⟨r, t, hr, reads_pure.2 ⟨rfl, rfl⟩⟩
  refine ⟨_, t, hread, ?_, hafter, hlog⟩
  show (Pattern.array _ _).bare = _
  rw [Pattern.bare_array, Pattern.bare_array, map_eq_of_forall₂ hall]

private theorem readsBack_object {span : Span} {fields : List FieldPattern}
    (h : ∀ f ∈ fields, ReadsBack (fieldPattern inner) (f.layout 0) Parted (·.bare = f.bare)) :
    ReadsBack (pattern inner) ((Pattern.object span fields).layout 0) Parted
      (·.bare = (Pattern.object span fields).bare) := by
  intro s rest hs hrest
  rw [Pattern.layout, Pattern.layoutFields_eq] at hs
  have hcurrent : s.current? = some (.symbol .leftBrace) := hs.current?
  obtain ⟨r, t, hr, hall, hafter, hlog⟩ :=
    readsBack_bracketed s.currentSpan (not_closer_of_reads_fieldPattern .brace) h s rest hs trivial
  have hread : Reads (pattern inner) s (.object (s.currentSpan.merge r.2) r.1) t := by
    unfold pattern
    rw [reads_get_bind, hcurrent]
    exact reads_bind.2 ⟨r, t, hr, reads_pure.2 ⟨rfl, rfl⟩⟩
  refine ⟨_, t, hread, ?_, hafter, hlog⟩
  show (Pattern.object _ _).bare = _
  rw [Pattern.bare_object, Pattern.bare_object, map_eq_of_forall₂ hall]

end Lists

private theorem readsBack_pattern (limit : Nat) (h : p.Writable) {room : Nat}
    (hroom : p.nesting ≤ room) :
    ReadsBack (enter limit (room + 1) .pattern) (p.layout 0) Parted (·.bare = p.bare) := by
  change ReadsBack (pattern (enter limit room)) (p.layout 0) Parted (·.bare = p.bare)
  induction h generalizing room with
  | @name n h hname =>
    rw [Pattern.layout, Piece.name, Name.lexeme, h.identifier]
    refine readsBack_identifier fun span => ?_
    rw [if_neg hname]
    rfl
  | wildcard span =>
    rw [Pattern.layout]
    exact readsBack_identifier fun span => rfl
  | literal h =>
    rw [Pattern.layout]
    exact readsBack_literalPattern h
  | @array span elements h ih =>
    rw [Pattern.nesting, Pattern.nestingEach_eq] at hroom
    refine readsBack_array (not_closer_of_reads_pattern .bracket) fun p hp => ?_
    have hlevel : p.nesting + 1 ≤ room := (le_highest hp).trans hroom
    obtain ⟨room, rfl⟩ := Nat.exists_eq_add_one_of_ne_zero (Nat.ne_zero_of_lt hlevel)
    exact ih p hp (Nat.le_of_succ_le_succ hlevel)
  | @object span fields hkeys h ih =>
    rw [Pattern.nesting, FieldPattern.nestingAll_eq] at hroom
    refine readsBack_object fun f hf => readsBack_field (hkeys f hf) fun p hp => ?_
    have hlevel : p.nesting + 1 ≤ room := by
      obtain ⟨key, pattern, span⟩ := f
      obtain rfl : pattern = some p := hp
      have hfield : (FieldPattern.mk key (some p) span).nesting ≤ room :=
        (le_highest hf).trans hroom
      rwa [FieldPattern.nesting] at hfield
    obtain ⟨room, rfl⟩ := Nat.exists_eq_add_one_of_ne_zero (Nat.ne_zero_of_lt hlevel)
    exact ih f hf p hp (Nat.le_of_succ_le_succ hlevel)
  | @range span start stop inclusive hbound hstart hstop =>
    cases start with
    | some l => exact readsBack_rangePattern (hstart l rfl) hstop
    | none =>
      obtain ⟨l, rfl⟩ := Option.isSome_iff_exists.1 (hbound.resolve_left Bool.false_ne_true)
      exact readsBack_openRangePattern (hstop l rfl)

private theorem reads_pipe_literal [∀ e, Advances (inner e)] {l : Literal} (hs : s.atLiteral = true)
    (h : Reads (literal inner) s l t) (hend : t.after = []) :
    Reads (pipe inner) s (.literal l) t := by
  have hcurrent : t.current? = none := by simp [State.current?, State.peek?, hend]
  have hmark : t.atRangeMark = false := by simp [State.atRangeMark, State.sees, hcurrent]
  have hread : Reads (literalOrRange inner) s (.literal l) t := by
    unfold literalOrRange
    refine reads_bind.2 ⟨l, t, h, ?_⟩
    rw [reads_get_bind, hmark]
    simp only [Bool.false_eq_true, and_false, ↓reduceIte]
    exact reads_pure.2 ⟨rfl, rfl⟩
  refine reads_pipe_alone ⟨?_, rfl⟩ hcurrent
  obtain ⟨found, hfound, hbegins⟩ := State.current?_of_atLiteral hs
  unfold primary
  rw [reads_get_bind]
  split
  case h_14 =>
    rw [if_pos hs]
    exact hread
  all_goals
    rename_i heq
    cases hfound.symm.trans heq
    rcases hbegins with hbegins | hbegins <;> cases hbegins

private theorem reads_item_binding {d : Decl} (hs : s.sees (.keyword .let_) = true)
    (h : Reads (binding inner) s d t) :
    Reads (item inner) s (.decl d) t := by
  have hdeclaration : Reads (declaration? inner) s (some d) t := by
    unfold declaration?
    rw [reads_get_bind, State.current?_of_sees hs]
    exact reads_bind.2 ⟨d, t, h, reads_pure.2 ⟨rfl, rfl⟩⟩
  exact reads_bind.2 ⟨some d, t, hdeclaration, reads_pure.2 ⟨rfl, rfl⟩⟩

private theorem readsBack_binding (limit : Nat) {room : Nat} (hp : p.Writable)
    (hroom : p.nesting ≤ room) {l : Literal} (hl : l.Writable) (span : Span) :
    ReadsBack (item (enter limit (room + 1))) ((Decl.binding span p (.literal l)).layout 0) (· = [])
      fun i => ∃ span' p' value, i = .decl (.binding span' p' value) ∧ p'.bare = p.bare := by
  intro s rest hs hrest
  subst hrest
  rw [Decl.layout_binding] at hs
  have hlet : s.InFront (lexeme (.keyword .let_) :: space ::
      (p.layout 0 ++ ([space, symbol .assign, space] ++ l.layout 0))) [] := hs
  obtain ⟨p', t, hp', hbare, ht, hlog⟩ :=
    (readsBack_pattern limit hp hroom).before hlet.advance.space fun _ => ⟨_, _, rfl, .inl rfl⟩
  have hassign : t.InFront (symbol .assign :: space :: l.layout 0) [] := ht.space
  have hvalue : t.advance.InFront (l.layout 0) [] := hassign.advance.space
  obtain ⟨l', u, hl', -, hend, hlog'⟩ :=
    readsBack_literal (enter limit room) hl t.advance [] hvalue trivial
  have hexpression : Reads (enter limit (room + 1) .expression) t.advance (.literal l') u :=
    reads_pipe_literal (hvalue.atLiteral hl) hl' hend
  have hread : Reads (binding (enter limit (room + 1))) s
      (.binding (s.currentSpan.merge l'.span) p' (.literal l')) u :=
    reads_bind.2 ⟨_, _, reads_expect.2 ⟨hlet.sees _, rfl, rfl⟩,
      reads_bind.2
        ⟨p', t, hp',
        reads_bind.2 ⟨_, _, reads_expect.2 ⟨hassign.sees _, rfl, rfl⟩,
        reads_bind.2 ⟨_, u, hexpression, reads_pure.2 ⟨rfl, rfl⟩⟩⟩⟩⟩
  refine ⟨_, u, reads_item_binding (hlet.sees _) hread, ⟨_, p', _, rfl, hbare⟩, hend, ?_⟩
  rw [hlog', State.log_advance, hlog, State.log_advance]

end Grammar

open Grammar

private theorem parse_of_item {source : String} {limit : Nat} {i : Item} {finish : State}
    (hlog : (State.ofString source 0).log = [])
    (h : Reads (item (enter limit limit)) (State.ofString source 0) i finish)
    (hend : finish.after = []) (hquiet : finish.log = []) :
    (parse source limit).2 = [] ∧ (parse source limit).1.items = [i] := by
  have hopen : ¬(State.ofString source 0).atEnd := by
    rw [State.atEnd, List.isEmpty_iff]
    intro hempty
    have hshorter := Consumes.shorter h
    rw [hempty] at hshorter
    exact Nat.not_lt_zero _ hshorter
  have hdone : finish.atEnd = true := by rw [State.atEnd, hend, List.isEmpty_nil]
  have hscript : Reads (script (enter limit limit)) (State.ofString source 0)
      ⟨[i], (State.ofString source 0).area⟩ finish :=
    reads_script.2 (.inr ⟨broken_of_log_nil hlog, .read hopen h (.done hdone), rfl⟩)
  obtain ⟨finish', hread, hlog'⟩ := reads_parse source limit
  obtain ⟨hprogram, rfl⟩ := EStateM.Result.ok.inj (hread.symm.trans hscript)
  exact ⟨hlog'.trans hquiet, by rw [hprogram]⟩

private theorem Decl.clear_binding {p : Pattern} {l : Literal} (hp : p.Writable) (hl : l.Writable)
    (span : Span) :
    Clear ((Decl.binding span p (.literal l)).layout 0) [] := by
  have hlet : Clear [lexeme (.keyword .let_), space] ((render (p.layout 0)).toList ++
      ((render ([space, symbol .assign, space] ++ l.layout 0)).toList ++ [])) := by
    refine ⟨⟨trivial, rfl, ?_⟩, trivial⟩
    exact bounds_cons (by decide)
  have hassign : Clear [space, symbol .assign, space] ((render (l.layout 0)).toList ++ []) := by
    refine ⟨⟨trivial, rfl, ?_⟩, trivial⟩
    rintro c ⟨⟩
    rfl
  rw [layout_binding, clear_append, clear_append, clear_append]
  exact ⟨hlet, hp.clear (sealed_render rfl (by decide)), hassign, hl.clear (by simp [Bounds]) rfl⟩

/-- What a pattern is written as, bound to a number, is read as a binding of the same pattern and
nothing is wrong with it, whatever names, literals and ranges the pattern is made of, if its levels
are within the limit. -/
theorem Pattern.parse_print (p : Pattern) (hp : p.Writable)
    (hnesting : p.nesting < Session.defaultLimit) :
    (parse ("let " ++ p.print ++ " = 0") Session.defaultLimit).2 = [] ∧
      ∃ span p' value, (parse ("let " ++ p.print ++ " = 0") Session.defaultLimit).1.items =
        [.decl (.binding span p' value)] ∧ p'.bare = p.bare := by
  have hzero : (Literal.integer .nowhere ("" ++ "0") 0).Writable :=
    .integer List.mem_cons_self (Rule.numeral_of_numberLength rfl rfl) rfl
  have htext : "let " ++ p.print ++ " = 0" =
      render ((Decl.binding .nowhere p (.literal (.integer .nowhere ("" ++ "0") 0))).layout 0) := by
    have hlet : "let ".toList = (render [Piece.keyword .let_, space]).toList := rfl
    have hvalue : " = 0".toList = (render [space, symbol .assign, space]).toList ++
        (render ((Literal.integer .nowhere ("" ++ "0") 0).layout 0)).toList := rfl
    apply String.toList_inj.1
    rw [Decl.layout_binding, render_append, render_append, render_append, String.toList_append,
      String.toList_append, hlet, hvalue, Pattern.print, List.append_assoc]
  have hclear := Decl.clear_binding hp hzero .nowhere
  obtain ⟨hafter, hlog⟩ := State.ofString_render hclear.legible hclear.kept
  rw [← htext] at hafter hlog
  obtain ⟨i, t, hi, ⟨span, p', value, rfl, hbare⟩, hend, hquiet⟩ :=
    readsBack_binding Session.defaultLimit hp (Nat.le_of_lt_succ hnesting) hzero .nowhere
      (State.ofString ("let " ++ p.print ++ " = 0") 0) [] ⟨0, by rw [hafter, List.append_nil]⟩ rfl
  obtain ⟨hdiagnostics, hitems⟩ := parse_of_item hlog hi hend (hquiet.trans hlog)
  exact ⟨hdiagnostics, span, p', value, hitems, hbare⟩

/-- A sign behind the mark of a range and the mark behind a digit, in an array and in an object in
it. -/
theorem Pattern.parse_print_of_nested :
    let bound : Literal := .integer .nowhere ("-" ++ "3") (-3)
    let port : Literal := .integer .nowhere ("" ++ "80") 80
    let p : Pattern := .array .nowhere [
      .object .nowhere
        [⟨⟨"depth", .nowhere⟩, some (.range .nowhere none (some bound) true), .nowhere⟩,
        ⟨⟨"host", .nowhere⟩, none, .nowhere⟩], .range .nowhere (some port) none false,
      .wildcard .nowhere]
    (p.print = "[\x7bdepth: ..=-3, host\x7d, 80.., _]" ∧ p.Writable ∧
      p.nesting < Session.defaultLimit) ∧
      (parse ("let " ++ p.print ++ " = 0") Session.defaultLimit).2 = [] ∧
      ∃ span p' value, (parse ("let " ++ p.print ++ " = 0") Session.defaultLimit).1.items =
        [.decl (.binding span p' value)] ∧ p'.bare = p.bare := by
  intro bound port p
  have hbound : bound.Writable := .integer (by decide) (Rule.numeral_of_numberLength rfl rfl) rfl
  have hport : port.Writable := .integer (by decide) (Rule.numeral_of_numberLength rfl rfl) rfl
  have hrange : (Pattern.range .nowhere none (some bound) true).Writable := by
    refine .range (.inr rfl) ?_ ?_
    · rintro _ ⟨⟩
    · rintro _ ⟨⟩
      exact hbound
  have hopen : (Pattern.range .nowhere (some port) none false).Writable := by
    refine .range (.inl rfl) ?_ ?_
    · rintro _ ⟨⟩
      exact hport
    · rintro _ ⟨⟩
  have hp : p.Writable := by
    refine .array ?_
    simp only [List.forall_mem_cons]
    refine ⟨.object ?_ ?_, hopen, .wildcard .nowhere, List.forall_mem_nil _⟩
    · simp only [List.forall_mem_cons]
      exact ⟨⟨⟨⟨_, _, rfl, rfl⟩, rfl⟩, rfl⟩, ⟨⟨⟨_, _, rfl, rfl⟩, rfl⟩, rfl⟩, List.forall_mem_nil _⟩
    · simp only [List.forall_mem_cons]
      refine ⟨?_, ?_, List.forall_mem_nil _⟩
      · rintro _ ⟨⟩
        exact hrange
      · rintro _ ⟨⟩
  have hnesting : p.nesting < Session.defaultLimit := by decide
  exact ⟨⟨rfl, hp, hnesting⟩, parse_print p hp hnesting⟩

end ApiScript
