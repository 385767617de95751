import ApiScript.Proofs.Reading.Loops
import ApiScript.Proofs.Spelling.Tree

set_option autoImplicit false
set_option relaxedAutoImplicit false

/-!
What a reader has read, told by marks: the tokens between the state it began in and the state it
left stand for them. Spans are those of the tokens between two states.
-/

namespace ApiScript

/-- A number begins with a digit, and an identifier is no keyword. -/
def Lexeme.Genuine : Lexeme → Prop
  | number _ text => ∃ c cs, text.toList = c :: cs ∧ c.isDigit = true
  | identifier text => ofWord text = identifier text
  | _ => True

namespace Grammar

namespace State

def tokens (s : State) : List Token := s.before.reverse ++ s.after

/-- The tokens stand in order within the text, each with a lexeme that can be read from one. -/
structure Sound (s : State) : Prop where
  area : s.area.start ≤ s.area.stop
  ordered : s.tokens.Pairwise fun t u => t.span.stop ≤ u.span.start
  nonempty : ∀ t ∈ s.tokens, t.span.start < t.span.stop
  inside : ∀ t ∈ s.tokens, s.area.start ≤ t.span.start ∧ t.span.stop ≤ s.area.stop
  genuine : ∀ t ∈ s.tokens, t.lexeme.Genuine

def front (s : State) : Nat := s.currentSpan.start

def back (s : State) : Nat := s.previousSpan.stop

def upTo (s t : State) : Span := ⟨s.front, t.back⟩

theorem tokens_of_moves {s t : State} {ts : List Token} (h : Moves s ts t) :
    t.tokens = s.tokens := by
  simp only [tokens, h.before, h.after, List.reverse_append, List.reverse_reverse,
    List.append_assoc]

theorem Sound.reaches {s t : State} (hs : s.Sound) (h : Reaches s t) : t.Sound := by
  obtain ⟨ts, h⟩ := h
  have ht := tokens_of_moves h
  constructor <;> simp only [ht, h.area]
  · exact hs.area
  · exact hs.ordered
  · exact hs.nonempty
  · exact hs.inside
  · exact hs.genuine

theorem Sound.mem_after {s : State} {t : Token} (h : t ∈ s.after) : t ∈ s.tokens :=
  List.mem_append_right _ h

private theorem Sound.back_le_front {s : State} (hs : s.Sound) : s.back ≤ s.front := by
  unfold back front previousSpan currentSpan
  cases hb : s.before with
  | nil =>
    cases ha : s.after with
    | nil => exact hs.area
    | cons t ts => exact (hs.inside t (Sound.mem_after (by simp [ha]))).1
  | cons u us =>
    have hu : u ∈ s.tokens := List.mem_append_left _ (by simp [hb])
    cases ha : s.after with
    | nil => exact (hs.inside u hu).2
    | cons t ts =>
      have := hs.ordered
      rw [tokens, List.pairwise_append] at this
      exact this.2.2 u (by simp [hb]) t (by simp [ha])

private theorem Sound.advance {s : State} (hs : s.Sound) {t : Token} {ts : List Token}
    (h : s.after = t :: ts) :
    s.advance.Sound := hs.reaches ⟨[t], .advance h⟩

theorem front_of_after {s : State} {t : Token} {ts : List Token} (h : s.after = t :: ts) :
    s.front = t.span.start := by
  simp only [front, currentSpan, h]

theorem back_advance {s : State} {t : Token} {ts : List Token} (h : s.after = t :: ts) :
    s.advance.back = t.span.stop := by
  simp only [back, previousSpan, State.advance, h]

private theorem moves_tail {s t : State} {u : Token} {us : List Token} (h : Moves s (u :: us) t) :
    Moves s.advance us t := by
  have hcons : s.after = u :: (us ++ t.after) := h.after
  constructor
  · simp [State.advance, hcons]
  · simpa [State.advance, hcons] using h.before
  · simpa [State.advance, hcons] using h.log
  · simpa [State.advance, hcons] using h.area
  · simpa [State.advance, hcons] using h.broken

private theorem Sound.mono {s t : State} {ts : List Token} (hs : s.Sound) (h : Moves s ts t) :
    s.front ≤ t.front ∧ s.back ≤ t.back := by
  induction ts generalizing s with
  | nil =>
    simp only [front, back, currentSpan, previousSpan, h.after, h.before, h.area, List.nil_append,
      List.reverse_nil, Nat.le_refl, and_self]
  | cons u us ih =>
    have hcons : s.after = u :: (us ++ t.after) := h.after
    have hs' := hs.advance hcons
    have := ih hs' (moves_tail h)
    have hlt := hs.nonempty u (Sound.mem_after (by simp [hcons]))
    have hback := hs'.back_le_front
    rw [back_advance hcons] at hback this
    have hfront := front_of_after hcons
    have := hs.back_le_front
    omega

private theorem Sound.front_le {s t : State} (hs : s.Sound) (h : Reaches s t) :
    s.front ≤ t.front := by
  obtain ⟨ts, h⟩ := h
  exact (hs.mono h).1

private theorem Sound.back_le {s t : State} (hs : s.Sound) (h : Reaches s t) : s.back ≤ t.back := by
  obtain ⟨ts, h⟩ := h
  exact (hs.mono h).2

end State

/-- The span is that of the tokens between two states, of which there is one at least. -/
def Spans (s : State) (span : Span) (t : State) : Prop :=
  Reaches s t ∧ (s.Sound → t.after.length < s.after.length ∧ span = s.upTo t)

namespace Spans

variable {s s₁ s₂ t : State} {a b : Span}

theorem token {l : Lexeme} (h : s.current? = some l) : Spans s s.currentSpan s.advance := by
  refine ⟨.advance s, fun _ => ⟨State.advance_shorter h, ?_⟩⟩
  cases ha : s.after with
  | nil => simp [State.current?, State.peek?, ha] at h
  | cons u us => simp only [State.upTo, State.front, State.back_advance ha, State.currentSpan, ha]

theorem expect {l : Lexeme} (h : Reads (expect l) s a t) : Spans s a t := by
  obtain ⟨hs, rfl, rfl⟩ := reads_expect.1 h
  exact token (State.current?_of_sees hs)

theorem close {delimiter : Delimiter} {list : Bool} {opener : Span}
    (h : Reads (close delimiter list opener) s a t) :
    Spans s a t := by
  obtain ⟨hs, rfl, rfl⟩ := reads_close.1 h
  exact token (State.current?_of_sees hs)

theorem merge (h : Spans s a s₁) (k : Reaches s₁ s₂) (l : Spans s₂ b t) :
    Spans s (a.merge b) t := by
  refine ⟨(h.1.trans k).trans l.1, fun hs => ?_⟩
  have hs₂ := hs.reaches (h.1.trans k)
  obtain ⟨hlen, ha⟩ := h.2 hs
  obtain ⟨hlen', hb⟩ := l.2 hs₂
  have hfront := hs.front_le (h.1.trans k)
  have hback := (hs.reaches h.1).back_le (k.trans l.1)
  have hmid := k.length_le
  refine ⟨by omega, ?_⟩
  rw [ha, hb]
  simp only [Span.merge, State.upTo, Span.mk.injEq]
  omega

theorem here (h : Spans s a s₁) (k : Reaches s₁ t) : Spans s (a.merge t.previousSpan) t := by
  refine ⟨h.1.trans k, fun hs => ?_⟩
  obtain ⟨hlen, ha⟩ := h.2 hs
  have hmid := k.length_le
  have hback := (hs.reaches h.1).back_le k
  obtain ⟨ts, hm⟩ := h.1.trans k
  have hts := hm.length
  refine ⟨by omega, ?_⟩
  have hstart : s.front ≤ t.previousSpan.start := by
    obtain ⟨u, us, rfl⟩ := List.exists_cons_of_ne_nil (l := ts) (by rintro rfl; simp at hts; omega)
    have hfront : s.front = u.span.start := State.front_of_after hm.after
    rcases List.eq_nil_or_concat us with rfl | ⟨vs, v, rfl⟩
    · simp only [State.previousSpan, hm.before, List.reverse_singleton, List.singleton_append]
      omega
    · have hprevious : t.previousSpan = v.span := by simp [State.previousSpan, hm.before]
      have hordered := hs.ordered
      rw [State.tokens, hm.after, List.pairwise_append] at hordered
      have huv := (List.pairwise_cons.1 (List.pairwise_append.1 hordered.2.1).1).1 v (by simp)
      have hu := hs.nonempty u (State.Sound.mem_after (by simp [hm.after]))
      rw [hprevious]
      omega
  rw [ha]
  simp only [Span.merge, State.upTo, Span.mk.injEq]
  exact ⟨by omega, Nat.max_eq_right hback⟩

theorem advance_reaches {α : Type} {p : Parser α} [Advances p] [Consumes p] {x : α}
    (h : Reads p s x t) :
    (∃ l, s.current? = some l) ∧ Reaches s.advance t := by
  have hlen := Consumes.shorter h
  obtain ⟨ts, hm⟩ := Advances.reads h
  have hts := hm.length
  obtain ⟨u, us, rfl⟩ := List.exists_cons_of_ne_nil (l := ts) (by rintro rfl; simp at hts; omega)
  exact ⟨⟨u.lexeme, by simp [State.current?, State.peek?, hm.after]⟩, us, State.moves_tail hm⟩

theorem ofReads {α : Type} {p : Parser α} [Advances p] [Consumes p] {x : α} (h : Reads p s x s₁)
    (k : Reaches s₁ t) :
    Spans s (s.currentSpan.merge t.previousSpan) t := by
  obtain ⟨⟨l, hl⟩, hreach⟩ := advance_reaches h
  exact (token hl).here (hreach.trans k)

end Spans

/-- The tokens between two states stand for the marks, as long as the text is sound. Where something
was reported in between, tokens may have been skipped between statements. -/
def Wrote (s : State) (ms : List Mark) (t : State) : Prop :=
  ∃ ts, Moves s ts t ∧
    (s.Sound → ∀ lax, lax = true ∨ t.log = s.log → Mark.SpelledAll lax ms ts t.after)

namespace Wrote

variable {s t u : State} {ms ns : List Mark} {span : Span}

theorem reaches (h : Wrote s ms t) : Reaches s t := ⟨_, h.choose_spec.1⟩

theorem nil (s : State) : Wrote s [] s := ⟨[], .refl s, fun _ _ _ => by simp only [Mark.SpelledAll]⟩

theorem append (h : Wrote s ms t) (k : Wrote t ns u) : Wrote s (ms ++ ns) u := by
  obtain ⟨ts, hm, hms⟩ := h
  obtain ⟨us, km, kns⟩ := k
  refine ⟨ts ++ us, hm.trans km, fun hs lax hlog => ?_⟩
  have hlogs : (lax = true ∨ t.log = s.log) ∧ (lax = true ∨ u.log = t.log) := by
    rcases hlog with hlax | hlog
    · exact ⟨.inl hlax, .inl hlax⟩
    · have ht : t.log = s.log := (hm.log.eq_of_length_le (hlog ▸ km.log.length_le)).symm
      exact ⟨.inr ht, .inr (hlog.trans ht.symm)⟩
  refine .append ?_ (kns (hs.reaches ⟨ts, hm⟩) lax hlogs.2)
  rw [← km.after]
  exact hms hs lax hlogs.1

theorem cons {m : Mark} (h : Wrote s [m] t) (k : Wrote t ms u) : Wrote s (m :: ms) u := h.append k

theorem node (h : Wrote s ms t) (k : Spans s span t) : Wrote s [.node span ms] t := by
  obtain ⟨ts, hm, hms⟩ := h
  refine ⟨ts, hm, fun hs lax hlog => ?_⟩
  obtain ⟨hlen, rfl⟩ := k.2 hs
  rw [Mark.spelledAll_singleton, Mark.Spelled]
  refine ⟨?_, hms hs lax hlog⟩
  have hts := hm.length
  have hne : ts ≠ [] := by rintro rfl; simp at hts; omega
  constructor
  · obtain ⟨v, vs, rfl⟩ := List.exists_cons_of_ne_nil hne
    exact ⟨v, rfl, State.front_of_after hm.after⟩
  · obtain ⟨vs, v, rfl⟩ := List.eq_nil_or_concat ts |>.resolve_left hne
    exact ⟨v, by simp, by simp [State.upTo, State.back, State.previousSpan, hm.before]⟩

theorem spans (h : Wrote s ms t) (k : Mark.IsNode span ms) : Spans s span t := by
  obtain ⟨body, rfl⟩ := k
  obtain ⟨ts, hm, hms⟩ := h
  refine ⟨⟨ts, hm⟩, fun hs => ?_⟩
  have hnode := hms hs true (.inl rfl)
  rw [Mark.spelledAll_singleton, Mark.Spelled] at hnode
  obtain ⟨⟨⟨v, hv, hstart⟩, ⟨w, hw, hstop⟩⟩, _⟩ := hnode
  have hlen := hm.length
  cases ts with
  | nil => cases hv
  | cons x xs =>
    cases hv
    refine ⟨by rw [List.length_cons] at hlen; omega, ?_⟩
    have hfront : s.front = v.span.start := State.front_of_after hm.after
    have hback : t.back = w.span.stop := by
      obtain ⟨ys, hys⟩ := List.getLast?_eq_some_iff.1 hw
      simp [State.back, State.previousSpan, hm.before, hys]
    rw [State.upTo, hfront, hback, ← hstart, ← hstop]

theorem lexeme {l : Lexeme} {follow : Follow} (h : s.sees l = true)
    (hf : ∀ next rest, s.after = next :: rest → follow.Holds next rest) :
    Wrote s [.lexeme l follow] s.advance := by
  have hl := State.current?_of_sees h
  cases ha : s.after with
  | nil => simp [State.current?, State.peek?, ha] at hl
  | cons next rest =>
    refine ⟨[next], .advance ha, fun _ lax _ => ?_⟩
    rw [Mark.spelledAll_singleton, Mark.Spelled]
    refine ⟨next, rfl, ?_, ?_⟩
    · simpa [State.current?, State.peek?, ha] using hl
    · have hrest : s.advance.after = rest := by simp only [State.advance, ha]
      rw [hrest]
      exact hf next rest ha

theorem plain {l : Lexeme} (h : s.sees l = true) : Wrote s [.plain l] s.advance :=
  lexeme h fun _ _ _ => trivial

theorem expect {l : Lexeme} {a : Span} (h : Reads (expect l) s a t) : Wrote s [.plain l] t := by
  obtain ⟨hs, _, rfl⟩ := reads_expect.1 h
  exact plain hs

theorem close {delimiter : Delimiter} {list : Bool} {opener a : Span}
    (h : Reads (close delimiter list opener) s a t) : Wrote s [.plain delimiter.closer] t := by
  obtain ⟨hs, _, rfl⟩ := reads_close.1 h
  exact plain hs

theorem name {expected : Expectation} {n : Name} (follow : Follow) (h : Reads (name expected) s n t)
    (hf : ∀ next rest, s.after = next :: rest → follow.Holds next rest) :
    Wrote s (n.marks follow) t := by
  obtain ⟨hs, hspan, rfl⟩ := reads_name.1 h
  refine node (lexeme (by simp [State.sees, hs]) hf) ?_
  rw [hspan]
  exact .token hs

theorem anyName {expected : Expectation} {n : Name} (h : Reads (Grammar.name expected) s n t) :
    Wrote s (n.marks .any) t := name .any h fun _ _ _ => trivial

theorem trailing {closer : Symbol} {ts : List Token} (h : Moves s ts t)
    (hts : ts.map (·.lexeme) = [.symbol closer] ∨
    ts.map (·.lexeme) = [.symbol .comma, .symbol closer]) :
    Wrote s [.trailing closer] t :=
  ⟨ts, h, fun _ _ _ => by rwa [Mark.spelledAll_singleton, Mark.Spelled]⟩

end Wrote

theorem State.sees_iff {s : State} {l : Lexeme} :
    s.sees l = true ↔ ∃ next rest, s.after = next :: rest ∧ next.lexeme = l := by
  unfold State.sees State.current? State.peek?
  cases s.after with
  | nil => simp
  | cons next rest => simp

section Delimited

variable {α : Type} {s t u : State} {marks : α → List Mark} {item : Parser α} {closer : Symbol}
    {trailing : Bool}

private theorem Continues.wrote (hitem : ∀ {s a t}, Reads item s a t → Wrote s (marks a) t)
    {as : List α} (h : Continues (.symbol closer) trailing item s as t)
    (hc : t.sees (.symbol closer) = true) :
    Wrote s ((as.map marks).flatMap (Mark.symbol .comma :: ·) ++
      [if trailing then .trailing closer else Mark.symbol closer]) t.advance := by
  induction h with
  | bare =>
    cases trailing with
    | false => exact .plain hc
    | true =>
      obtain ⟨next, rest, hs, hnext⟩ := State.sees_iff.1 hc
      exact .trailing (.advance hs) (.inl (by rw [List.map_cons, hnext, List.map_nil]))
  | @comma s hcomma allowed =>
    subst allowed
    obtain ⟨next, rest, hs, hnext⟩ := State.sees_iff.1 hcomma
    obtain ⟨next', rest', hs', hnext'⟩ := State.sees_iff.1 hc
    exact .trailing ((Moves.advance hs).trans (.advance hs')) (.inr (by simp [hnext, hnext']))
  | more hcomma _ ha _ ih =>
    have h := (Wrote.plain hcomma).append ((hitem ha).append (ih hc))
    simpa only [List.map_cons, List.flatMap_cons, List.cons_append, List.append_assoc,
      List.nil_append] using h

theorem Continues.reaches [Advances item] {l : Lexeme} {as : List α}
    (h : Continues l trailing item s as t) :
    Reaches s t := by
  induction h with
  | bare => exact .refl _
  | comma => exact .advance _
  | more _ _ ha _ ih => exact (Reaches.advance _).trans ((Advances.reads ha).trans ih)

theorem Wrote.delimited (marks : α → List Mark) [Advances item] {delimiter : Delimiter}
    {opener : Symbol} {o a : Span} {r : List α × Span} (hcloser : delimiter.closer = .symbol closer)
    (hitem : ∀ {s a t}, Reads item s a t → Wrote s (marks a) t)
    (ho : Reads (Grammar.expect (.symbol opener)) s a t)
    (h : Reads (Grammar.delimited delimiter trailing o item) t r u) :
    Wrote s (Mark.listed opener closer trailing (r.1.map marks)) u ∧ ∃ v, Reaches t v ∧
    Spans v r.2 u := by
  rcases reads_delimited.1 h with ⟨hc, rfl, rfl⟩ | ⟨_, a, s₁, as, s₂, ha, has, hc, rfl, rfl⟩
  · rw [hcloser] at hc
    exact ⟨(Wrote.expect ho).append (.plain hc), t, .refl t, .token (State.current?_of_sees hc)⟩
  · rw [hcloser] at hc has
    have hfirst := hitem ha
    have hrest := has.wrote hitem hc
    have hclose : Spans s₂ s₂.currentSpan s₂.advance := .token (State.current?_of_sees hc)
    refine ⟨?_, s₂, ?_, hclose⟩
    · have h := (Wrote.expect ho).append (hfirst.append hrest)
      simpa only [Mark.listed, Mark.separated, List.map_cons, List.cons_append, List.append_assoc,
        List.nil_append] using h
    · exact hfirst.reaches.trans has.reaches

theorem Collects.wrote (marks : α → List Mark) {step : Parser (Option α)} {separator : Symbol}
    (hnone : ∀ {s t}, Reads step s none t → t = s)
    (hsome : ∀ {s a t}, Reads step s (some a) t → Wrote s (Mark.symbol separator :: marks a) t)
    {as : List α} (h : Collects step s as t) :
    Wrote s ((as.map marks).flatMap (Mark.symbol separator :: ·)) t := by
  induction h with
  | done h =>
    rw [hnone h]
    exact .nil _
  | more h _ ih =>
    rw [List.map_cons, List.flatMap_cons]
    exact (hsome h).append ih

end Delimited

end Grammar

end ApiScript
