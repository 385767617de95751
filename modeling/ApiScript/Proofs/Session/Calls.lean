import ApiScript.Proofs.Pairing.Standalone

set_option autoImplicit false
set_option relaxedAutoImplicit false

/-!
Sessions that are called more than once. Whatever the calls before it came to, a call goes on where
they stopped, with the whole limit of nesting, and adds to what they reported.
-/

namespace ApiScript

open Grammar Placed

namespace Session

inductive Call
  | program | expression
  deriving DecidableEq

inductive Answer
  | program (p : Program)
  | expression (e : Except Diagnostic Expr)

def call (s : Session) : Call → Answer × Session
  | .program => (.program s.program.1, s.program.2)
  | .expression => (.expression s.expression.1, s.expression.2)

def behind (s : Session) : List Call → Session
  | [] => s
  | c :: calls => (s.call c).2.behind calls

def tokens (s : Session) : List Token := s.state.before.reverse ++ s.state.after

def position (s : Session) : Nat := s.state.before.length

/-- A session of the same text that has not been called, with so many tokens left behind and nothing
reported. -/
def startedAt (s : Session) (n : Nat) : Session :=
  { s with state :=
    { s.state with before := (s.tokens.take n).reverse, after := s.tokens.drop n, log := [] } }

private def unreported (s : Session) : Session := { s with state := { s.state with log := [] } }

def preceded (ds : List Diagnostic) (s : Session) : Session :=
  { s with state := { s.state with log := ds ++ s.state.log } }

/-- What is the same in a later session, and what may only have grown. -/
structure Follows (s t : Session) : Prop where
  limit : t.limit = s.limit
  area : t.state.area = s.state.area
  broken : t.state.broken = s.state.broken
  tokens : t.tokens = s.tokens
  position : s.position ≤ t.position
  within : t.position ≤ t.tokens.length
  diagnostics : s.diagnostics <+: t.diagnostics

section Kept

variable {s t u : Session}

instance (s : Session) (e : Entry) : Advances (s.inner e) :=
  inferInstanceAs (Advances (enter s.limit s.limit e))

instance (s : Session) : Consumes (s.inner .expression) :=
  inferInstanceAs (Consumes (enter s.limit s.limit .expression))

instance (s : Session) : Advances (script s.inner) :=
  inferInstanceAs (Advances (script (enter s.limit s.limit)))

instance (inner : Inner) [∀ e, Advances (inner e)] : Advances (wholeExpression inner) := by
  unfold wholeExpression
  infer_instance

private theorem Follows.of_reaches (hlimit : t.limit = s.limit) (h : Reaches s.state t.state) :
    Follows s t := by
  obtain ⟨ts, h⟩ := h
  refine ⟨hlimit, h.area, h.broken, ?_, ?_, ?_, h.log⟩
  · rw [Session.tokens, Session.tokens, h.before, h.after, List.reverse_append,
      List.reverse_reverse, List.append_assoc]
  · rw [Session.position, Session.position, h.before, List.length_append]
    exact Nat.le_add_left _ _
  · rw [Session.position, Session.tokens, List.length_append, List.length_reverse]
    exact Nat.le_add_right _ _

private theorem Follows.trans (h : Follows s t) (k : Follows t u) : Follows s u where
  limit := k.limit.trans h.limit
  area := k.area.trans h.area
  broken := k.broken.trans h.broken
  tokens := k.tokens.trans h.tokens
  position := Nat.le_trans h.position k.position
  within := k.within
  diagnostics := h.diagnostics.trans k.diagnostics

private theorem program_of_reads {p : Program} {u : State}
    (h : Reads (script s.inner) s.state p u) :
    s.program = (p, { s with state := u }) := by
  have hrun : (script s.inner).run s.state = .ok p u := h
  rw [Session.program, hrun]

private theorem program_reads (s : Session) : ∃ p u, Reads (script s.inner) s.state p u := by
  cases h : (script s.inner).run s.state with
  | ok p u => exact ⟨p, u, h⟩
  | error d u => exact absurd h fails_script

private theorem expression_of_reads {e : Expr} {u : State}
    (h : Reads (wholeExpression s.inner) s.state e u) :
    s.expression = (.ok e, { s with state := u }) := by
  have hrun : (wholeExpression s.inner).run s.state = .ok e u := h
  rw [Session.expression, hrun]

private theorem expression_of_fails {d : Diagnostic} {u : State}
    (h : Fails (wholeExpression s.inner) s.state d u) :
    s.expression = (.error d, { s with state := u }) := by
  have hrun : (wholeExpression s.inner).run s.state = .error d u := h
  rw [Session.expression, hrun]

private theorem call_follows (s : Session) (c : Call) : Follows s (s.call c).2 := by
  cases c with
  | program =>
    obtain ⟨p, u, h⟩ := s.program_reads
    have hreach : Reaches s.state u := Advances.reads h
    rw [call, program_of_reads h]
    exact .of_reaches rfl hreach
  | expression =>
    cases h : wholeExpression s.inner s.state with
    | ok e u =>
      have hreach : Reaches s.state u := Advances.reads h
      rw [call, expression_of_reads h]
      exact .of_reaches rfl hreach
    | error d u =>
      have hreach : Reaches s.state u := Advances.fails h
      rw [call, expression_of_fails h]
      exact .of_reaches rfl hreach

private theorem behind_follows (s : Session) (calls : List Call) : Follows s (s.behind calls) := by
  induction calls generalizing s with
  | nil => exact .of_reaches rfl (.refl _)
  | cons c calls ih =>
    have hfirst : Follows s (s.call c).2 := s.call_follows c
    exact hfirst.trans (ih (s.call c).2)

end Kept

section Depth

variable {limit depth : Nat} {inner : Inner}

/-- The readers of nodes with so many levels around them. -/
structure AtDepth (limit depth : Nat) (inner : Inner) : Prop where
  depth_le : depth ≤ limit
  eq_enter : inner = enter limit (limit - depth)

/-- The nodes inside those that are read at a depth are read one level deeper. -/
theorem AtDepth.deeper (h : AtDepth limit depth inner) (hdepth : depth < limit) :
    ∃ inner', inner = node inner' ∧ AtDepth limit (depth + 1) inner' := by
  have hroom : limit - depth = limit - (depth + 1) + 1 := by omega
  exact ⟨enter limit (limit - (depth + 1)), by rw [h.eq_enter, hroom, enter], hdepth, rfl⟩

/-- At the depth of the limit no node is read. -/
theorem AtDepth.full (h : AtDepth limit limit inner) (e : Entry) (s : State) :
    Fails (inner e) s ⟨.tooDeep limit, s.currentSpan⟩ s := by
  rw [h.eq_enter, Nat.sub_self]
  rfl

/-- Behind any calls, whether they read what they were made for or failed on the way, a session is
at the depth it began with. -/
theorem behind_atDepth (s : Session) (calls : List Call) :
    AtDepth s.limit 0 (s.behind calls).inner := by
  refine ⟨Nat.zero_le _, ?_⟩
  rw [inner, (s.behind_follows calls).limit, Nat.sub_zero]

end Depth

section Exhausted

variable {s : Session}

private theorem program_exhausts (h : s.state.broken = false) : s.program.2.state.after = [] := by
  obtain ⟨p, u, hread⟩ := s.program_reads
  rcases reads_script.1 hread with ⟨hbroken, _⟩ | ⟨_, hlisted, _⟩
  · rw [h] at hbroken
    cases hbroken
  · have hend : u.atEnd = true := hlisted.atEnd
    rw [program_of_reads hread]
    exact List.isEmpty_iff.1 hend

private theorem program_of_exhausted (h : s.state.after = []) :
    s.program = (⟨[], s.state.area⟩, s) := by
  have hend : s.state.atEnd = true := by rw [State.atEnd, h, List.isEmpty_nil]
  have hread : Reads (script s.inner) s.state ⟨[], s.state.area⟩ s.state := by
    rw [reads_script]
    cases hbroken : s.state.broken with
    | true => exact .inl ⟨rfl, rfl, rfl⟩
    | false => exact .inr ⟨rfl, .done hend, rfl⟩
  exact program_of_reads hread

private theorem Follows.exhausted {t : Session} (h : Follows s t) (hs : s.state.after = []) :
    t.state.after = [] := by
  have htokens := congrArg List.length h.tokens
  have hposition := h.position
  simp only [Session.tokens, Session.position, List.length_append, List.length_reverse, hs,
    List.length_nil]
    at htokens hposition
  exact List.eq_nil_of_length_eq_zero (by omega)

private theorem behind_exhausted (hs : s.state.broken = false) {calls : List Call}
    (h : .program ∈ calls) :
    (s.behind calls).state.after = [] := by
  induction calls generalizing s with
  | nil => cases h
  | cons c calls ih =>
    have hfirst : Follows s (s.call c).2 := s.call_follows c
    rcases List.mem_cons.1 h with rfl | hrest
    · have hlater : Follows (s.call .program).2 ((s.call .program).2.behind calls) :=
        behind_follows _ _
      exact hlater.exhausted (program_exhausts hs)
    · have hbroken : (s.call c).2.state.broken = false := hfirst.broken.trans hs
      exact ih hbroken hrest

end Exhausted

end Session

namespace Grammar

/-- A run beside itself, where nothing had been reported in front of the second one. -/
private abbrev Regime.silent (s : State) (bound : Nat) : Regime :=
  { Regime.self (.atEnd bound) with
    before := s.before
    before' := s.before
    log := s.log }

variable {α : Type} {s u v : State} {bound : Nat} {b : Bool}

private theorem twins_silent
    (hsize : ∀ t ∈ s.after, t.span.start + Text.byteSize t.lexeme.spelling.toList ≤ bound)
    (hstop : s.area.stop ≤ bound) : Twins (.silent s bound) false s { s with log := [] } where
  fence := ⟨s.after, (List.append_nil _).symm, hsize, fun _ => hstop, fun h => absurd rfl h,
    fun h => absurd rfl h, fun h => absurd rfl h⟩
  broken := rfl
  after := rfl
  seams := by
    have hseams := seams_map id id (fun _ _ => rfl) s.after
    rwa [Token.map_respan_id] at hseams
  stop := rfl
  before := ⟨[], [], rfl, rfl, rfl, nofun⟩
  log := ⟨[], [], (List.append_nil _).symm, rfl, rfl, List.forall_mem_nil _⟩

private theorem Twins.eq_of_silent (h : Twins (.silent s bound) b u v) (hu : Reaches s u)
    (hv : Reaches { s with log := [] } v) :
    u = { v with log := s.log ++ v.log } := by
  obtain ⟨_, hu⟩ := hu
  obtain ⟨_, hv⟩ := hv
  obtain ⟨us, us', hbefore, hbefore', hsame, _⟩ := h.before
  obtain ⟨ds, ds', hlog, hlog', hdiagnostics, _⟩ := h.log
  have hareas : u.area = v.area := hu.area.trans hv.area.symm
  have hread : us = us' := by
    have hrespan : us.map (Token.respan id) = us'.map (Token.respan id) := hsame
    rwa [Token.map_respan_id, Token.map_respan_id] at hrespan
  have hafter : u.after = v.after := by
    have hrespan : u.after.map (Token.respan id) = v.after.map (Token.respan id) := h.after
    rwa [Token.map_respan_id, Token.map_respan_id] at hrespan
  have hreported : ds = ds' := by
    have hrespan : ds.map (Diagnostic.respan id) = ds'.map (Diagnostic.respan id) := hdiagnostics
    rwa [Diagnostic.map_respan_id, Diagnostic.map_respan_id] at hrespan
  have hbefores : u.before = v.before := by rw [hbefore, hbefore', hread]
  have hlogs : u.log = s.log ++ v.log := by rw [hlog, hlog', hreported, List.nil_append]
  cases u
  cases v
  simp only [State.mk.injEq] at *
  exact ⟨hareas, h.broken, hbefores, hafter, hlogs⟩

private theorem Agree.reads_silent [Placed α] {p : Parser α} [Advances p]
    (hid : ∀ a : α, Placed.respan id a = a)
    (h : Agree (.silent s bound) b p p s { s with log := [] }) {a : α} (hp : Reads p s a u) :
    ∃ v, Reads p { s with log := [] } a v ∧ u = { v with log := s.log ++ v.log } := by
  obtain ⟨a', v, hread, hsame, htwins⟩ := h.exists_reads hp
  have ha : a = a' := by
    have hrespan : Placed.respan id a = Placed.respan id a' := hsame
    rwa [hid, hid] at hrespan
  rw [← ha] at hread
  exact ⟨v, hread, htwins.eq_of_silent (Advances.reads hp) (Advances.reads hread)⟩

private theorem Agree.fails_silent [Placed α] {p : Parser α} [Advances p]
    (h : Agree (.silent s bound) b p p s { s with log := [] }) {d : Diagnostic}
    (hp : Fails p s d u) :
    ∃ v, Fails p { s with log := [] } d v ∧ u = { v with log := s.log ++ v.log } := by
  cases hq : p { s with log := [] } with
  | ok a v =>
    rw [Agree, hq, show p s = .error d u from hp] at h
    cases h
  | error d' v =>
    obtain ⟨hreports, htwins⟩ := h.fails hp hq
    have hd : [d] = [d'] := by
      have hrespan : [d].map (Diagnostic.respan id) = [d'].map (Diagnostic.respan id) :=
        congrArg (fun d => [d]) hreports.same
      rwa [Diagnostic.map_respan_id, Diagnostic.map_respan_id] at hrespan
    obtain rfl : d = d' := List.head_eq_of_cons_eq hd
    exact ⟨v, hq, htwins.eq_of_silent (Advances.fails hp) (Advances.fails hq)⟩

private theorem script_silent (limit room : Nat) {p : Program}
    (hsize : ∀ t ∈ s.after, t.span.start + Text.byteSize t.lexeme.spelling.toList ≤ bound)
    (hstop : s.area.stop ≤ bound) (h : Reads (script (enter limit room)) s p u) :
    ∃ v, Reads (script (enter limit room)) { s with log := [] } p v ∧
    u = { v with log := s.log ++ v.log } := by
  rcases reads_script.1 h with ⟨hbroken, hp, rfl⟩ | ⟨hbroken, hlisted, hp⟩
  · refine ⟨{ u with log := [] }, reads_script.2 (.inl ⟨hbroken, hp, rfl⟩), ?_⟩
    rw [List.append_nil]
  · have hopen : (Regime.silent s bound).fence.Open := rfl
    have hagree := agree_items (alike_enter limit room) hopen (twins_silent hsize hstop)
    have hid (items : List Item) : Placed.respan id items = items := by
      have hrespan : items.map (Item.respan id) = items := by
        rw [← Item.respanAll_eq_map, Item.respanAll_id]
      exact hrespan
    obtain ⟨v, hread, hv⟩ := hagree.reads_silent hid ((reads_statements fun _ h => h).2 hlisted)
    have hlisted' := (reads_statements fun _ h => h).1 hread
    exact ⟨v, reads_script.2 (.inr ⟨hbroken, hlisted', hp⟩), hv⟩

end Grammar

namespace Session

variable {s start : Session} {bound : Nat}

/-- A call does what it does where nothing had been reported before, and reports behind what had
been. -/
private theorem call_unreported
    (hsize : ∀ t ∈ s.state.after, t.span.start + Text.byteSize t.lexeme.spelling.toList ≤ bound)
    (hstop : s.state.area.stop ≤ bound) (c : Call) :
    s.call c = ((s.unreported.call c).1, (s.unreported.call c).2.preceded s.diagnostics) := by
  cases c with
  | program =>
    obtain ⟨p, u, hread⟩ := s.program_reads
    obtain ⟨v, hsilent, rfl⟩ := script_silent s.limit s.limit hsize hstop hread
    have hread' : Reads (script s.unreported.inner) s.unreported.state p v := hsilent
    rw [call, call, program_of_reads hread, program_of_reads hread']
    rfl
  | expression =>
    have hagree := agree_wholeExpression (alike_enter s.limit s.limit) (twins_silent hsize hstop)
    cases hrun : wholeExpression s.inner s.state with
    | ok e u =>
      obtain ⟨v, hsilent, rfl⟩ := hagree.reads_silent Expr.respan_id hrun
      have hread : Reads (wholeExpression s.unreported.inner) s.unreported.state e v := hsilent
      rw [call, call, expression_of_reads hrun, expression_of_reads hread]
      rfl
    | error d u =>
      obtain ⟨v, hsilent, rfl⟩ := hagree.fails_silent hrun
      have hfail : Fails (wholeExpression s.unreported.inner) s.unreported.state d v := hsilent
      rw [call, call, expression_of_fails hrun, expression_of_fails hfail]
      rfl

private theorem Follows.startedAt (h : Follows start s) :
    start.startedAt s.position = s.unreported := by
  have htake : (start.tokens.take s.position).reverse = s.state.before := by
    rw [← h.tokens, Session.tokens, Session.position, ← List.length_reverse, List.take_left,
      List.reverse_reverse]
  have hdrop : start.tokens.drop s.position = s.state.after := by
    rw [← h.tokens, Session.tokens, Session.position, ← List.length_reverse, List.drop_left]
  simp only [Session.startedAt, Session.unreported, htake, hdrop, h.limit, h.area, h.broken]

/-- Calls, one behind the other, keep a session consistent: whatever they come to, the text and the
limit stay the same, reading moves forward and within the text, and diagnostics are only added. No
call is told from one that a session of the same text is started with at the same place, which has
the whole limit of nesting. A script, if called for, leaves no token of a text that can be trusted,
so that later ones are empty. -/
theorem behind_consistent (source : String) (limit : Nat) (calls : List Call) (c : Call) :
    let start := Session.ofString source limit
    let s := start.behind calls
    let fresh := start.startedAt s.position
    Follows start s ∧ Follows s (s.call c).2 ∧
      s.call c = ((fresh.call c).1, (fresh.call c).2.preceded s.diagnostics) ∧
      (.program ∈ calls → (∀ e ∈ (Lexer.ofString source 0).tokenizeFiltered.2, ¬e.isFatal) →
        s.position = s.tokens.length ∧ s.program = (⟨[], s.state.area⟩, s)) := by
  intro start s fresh
  have hfollows : Follows start s := behind_follows start calls
  refine ⟨hfollows, s.call_follows c, ?_, fun hcalled hsound => ?_⟩
  · -- What is ahead of the session lies within the text, as all its tokens do.
    have hahead : ∀ t ∈ s.state.after, t ∈ start.state.after := by
      intro t ht
      have htokens : t ∈ start.tokens := by
        rw [← hfollows.tokens]
        exact List.mem_append_right _ ht
      exact htokens
    have hstop : s.state.area.stop ≤ 0 + Text.byteSize source.toList := by
      rw [hfollows.area, ← Text.utf8ByteSize_eq]
      exact Nat.le_refl _
    have hfresh : fresh = s.unreported := hfollows.startedAt
    rw [hfresh]
    exact call_unreported (fun t ht => State.ofString_size_le (hahead t ht)) hstop c
  · have hbroken : start.state.broken = false := by
      have hany : (Lexer.ofString source 0).tokenizeFiltered.2.any (·.isFatal) = false :=
        List.any_eq_false.2 hsound
      exact hany
    have hend : s.state.after = [] := behind_exhausted hbroken hcalled
    refine ⟨?_, program_of_exhausted hend⟩
    rw [Session.position, Session.tokens, hend, List.append_nil, List.length_reverse]

/-- An expression that fails at a closer, a script that loses a name and a number, and an expression
behind the end. -/
theorem behind_consistent_of_failures :
    let s := (Session.ofString ") f let 1 x" 8).behind [.expression, .program, .expression]
    Call.program ∈ [Call.expression, .program, .expression] ∧
      (∀ e ∈ (Lexer.ofString ") f let 1 x" 0).tokenizeFiltered.2, ¬e.isFatal) ∧
      s.position = s.tokens.length ∧ s.program = (⟨[], s.state.area⟩, s) := by
  intro s
  have hcalled : Call.program ∈ [Call.expression, .program, .expression] := by decide
  have hsound : ∀ e ∈ (Lexer.ofString ") f let 1 x" 0).tokenizeFiltered.2, ¬e.isFatal := by
    decide +kernel
  exact ⟨hcalled, hsound,
    (behind_consistent ") f let 1 x" 8 [.expression, .program, .expression] .program).2.2.2
      hcalled hsound⟩

end Session

end ApiScript
