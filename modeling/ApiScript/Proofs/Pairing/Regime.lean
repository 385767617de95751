import ApiScript.Proofs.Pairing.Fence
import ApiScript.Proofs.Spans.Placed

set_option autoImplicit false
set_option relaxedAutoImplicit false

/-!
Two runs of the grammar side by side, on tokens that differ in their places alone. A regime says
which places belong together, and what is known of the first run.
-/

namespace ApiScript.Grammar

open Placed

/-- How the places of two runs belong together: where one function makes of the first what another
makes of the second. What was read and reported in front of the runs is of no interest to them. -/
structure Regime where
  left : Span → Span
  right : Span → Span
  merge {a a' b b' : Span} :
    left a = right a' → left b = right b' → left (a.merge b) = right (a'.merge b')
  within {a a' : Span} :
    left a = right a' → ∀ i j, left ⟨a.start + i, a.start + j⟩ = right ⟨a'.start + i, a'.start + j⟩
  fence : Fence
  before : List Token
  before' : List Token
  log : List Diagnostic
  log' : List Diagnostic

/-- Two values that differ in places alone, which belong together. -/
abbrev Regime.Same {α : Type} [Placed α] (R : Regime) (a b : α) : Prop :=
  respan R.left a = respan R.right b

/-- Whether the grammar may ask if the second lexeme is written against the first. -/
def asksTouch : Lexeme → Lexeme → Bool
  | .symbol .minus, l => l.isSignable
  | .keyword .emit, .symbol .dot | .keyword .emit, .symbol .leftParen => true
  | _, _ => false

/-- Whether the grammar may ask, behind an emission and its point, if the second lexeme is written
against the first. -/
def asksArguments : Lexeme → Lexeme → Bool
  | .identifier _, .symbol .leftParen => true
  | _, _ => false

/-- The same is answered at the heads of both lists, where the format of an emission begins. -/
def FormatSeam : List Token → List Token → Prop
  | n :: p :: _, n' :: p' :: _ =>
    asksArguments n.lexeme p.lexeme = true → n.span.touches p.span = n'.span.touches p'.span
  | _, _ => True

/-- The same is answered at the heads of both lists where the grammar asks if one token is written
against another: a number against a sign, or what follows an emission or its format. -/
def Seam : List Token → List Token → Prop
  | a :: b :: ts, a' :: b' :: us =>
    (asksTouch a.lexeme b.lexeme = true → a.span.touches b.span = a'.span.touches b'.span) ∧
      (a.lexeme = .keyword .emit → b.lexeme = .symbol .dot → a.span.touches b.span = true →
      FormatSeam ts us)
  | _, _ => True

def Seams : List Token → List Token → Prop
  | a :: ts, a' :: us => Seam (a :: ts) (a' :: us) ∧ Seams ts us
  | _, _ => True

instance FormatSeam.decide : (ts us : List Token) → Decidable (FormatSeam ts us)
  | n :: p :: _, n' :: p' :: _ =>
    inferInstanceAs
      (Decidable (asksArguments n.lexeme p.lexeme = true →
      n.span.touches p.span = n'.span.touches p'.span))
  | [], _ | [_], _ | _ :: _ :: _, [] | _ :: _ :: _, [_] => isTrue trivial

instance Seam.decide : (ts us : List Token) → Decidable (Seam ts us)
  | a :: b :: ts, a' :: b' :: us =>
    inferInstanceAs
      (Decidable ((asksTouch a.lexeme b.lexeme = true →
      a.span.touches b.span = a'.span.touches b'.span) ∧
      (a.lexeme = .keyword .emit → b.lexeme = .symbol .dot → a.span.touches b.span = true →
      FormatSeam ts us)))
  | [], _ | [_], _ | _ :: _ :: _, [] | _ :: _ :: _, [_] => isTrue trivial

instance Seams.decide : (ts us : List Token) → Decidable (Seams ts us)
  | a :: ts, a' :: us =>
    have := Seams.decide ts us
    inferInstanceAs (Decidable (Seam (a :: ts) (a' :: us) ∧ Seams ts us))
  | [], _ | _ :: _, [] => isTrue trivial

/-- Two states that the same is ahead of, and that came from the starts of the two runs the same
way. Where `started` is known, a token was read since. -/
structure Twins (R : Regime) (started : Bool) (s t : State) : Prop where
  fence : R.fence.Holds s
  broken : s.broken = t.broken
  after : R.Same s.after t.after
  seams : Seams s.after t.after
  stop : R.Same (Span.point s.area.stop) (Span.point t.area.stop)
  before : ∃ us us', s.before = us ++ R.before ∧ t.before = us' ++ R.before' ∧ R.Same us us' ∧
    (started = true → us ≠ [])
  log : ∃ ds ds', s.log = R.log ++ ds ∧ t.log = R.log' ++ ds' ∧ R.Same ds ds' ∧ ∀ d ∈ ds,
    d.span.start ≤ R.fence.bound

section Lists

variable {α : Type} [Placed α] {R : Regime}

private theorem same_nil_left {bs : List α} : R.Same ([] : List α) bs ↔ bs = [] := by
  cases bs <;> simp [Regime.Same, Placed.respan]

theorem same_cons_left {a : α} {as bs : List α} : R.Same (a :: as) bs ↔
    ∃ b bs', bs = b :: bs' ∧ R.Same a b ∧ R.Same as bs' := by
  cases bs with
  | nil => simp [Regime.Same, Placed.respan]
  | cons b bs =>
    simp only [Regime.Same, Placed.respan, List.map_cons, List.cons.injEq]
    constructor
    · exact fun h => ⟨b, bs, ⟨rfl, rfl⟩, h⟩
    · rintro ⟨_, _, ⟨rfl, rfl⟩, h⟩
      exact h

theorem same_append {as bs as' bs' : List α} (h : R.Same as as') (h' : R.Same bs bs') :
    R.Same (as ++ bs) (as' ++ bs') := by
  simp only [Regime.Same, Placed.respan, List.map_append] at h h' ⊢
  rw [h, h']

theorem same_length {as bs : List α} (h : R.Same as bs) : as.length = bs.length := by
  simpa [Regime.Same, Placed.respan] using congrArg List.length h

private theorem same_token {t u : Token} :
    R.Same t u ↔ t.lexeme = u.lexeme ∧ R.Same t.span u.span := by
  simp [Regime.Same, Placed.respan, Token.respan]

end Lists

namespace Twins

variable {R : Regime} {b : Bool} {s t : State}

theorem weaken {c : Bool} (h : Twins R b s t) (hc : c = true → b = true) : Twins R c s t := by
  obtain ⟨us, us', hs, ht, hsame, hstarted⟩ := h.before
  exact { h with before := ⟨us, us', hs, ht, hsame, fun hc' => hstarted (hc hc')⟩ }

theorem lexemes (h : Twins R b s t) : s.after.map (·.lexeme) = t.after.map (·.lexeme) := by
  have hlexemes := congrArg (List.map (·.lexeme)) h.after
  simpa [Regime.Same, Placed.respan, Token.respan, Function.comp_def] using hlexemes

theorem peek? (h : Twins R b s t) (n : Nat) : s.peek? n = t.peek? n := by
  have hlexemes := congrArg (·[n]?) h.lexemes
  simpa [State.peek?] using hlexemes

theorem current? (h : Twins R b s t) : s.current? = t.current? := h.peek? 0

theorem sees (h : Twins R b s t) (l : Lexeme) : s.sees l = t.sees l := by
  rw [State.sees, State.sees, h.current?]

theorem length (h : Twins R b s t) : s.after.length = t.after.length := same_length h.after

theorem atEnd (h : Twins R b s t) : s.atEnd = t.atEnd := by
  have hlength := h.length
  rw [State.atEnd, State.atEnd]
  cases hs : s.after <;> cases ht : t.after <;> simp [hs, ht] at hlength ⊢

theorem atIdentifier (h : Twins R b s t) : s.atIdentifier = t.atIdentifier := by
  rw [State.atIdentifier, State.atIdentifier, h.current?]

theorem atString (h : Twins R b s t) : s.atString = t.atString := by
  rw [State.atString, State.atString, h.current?]

theorem atRangeMark (h : Twins R b s t) : s.atRangeMark = t.atRangeMark := by
  rw [State.atRangeMark, State.atRangeMark, h.sees, h.sees]

theorem atObjectStart (h : Twins R b s t) : s.atObjectStart = t.atObjectStart := by
  simp only [State.atObjectStart, h.sees, h.peek?]

theorem atOptionalObject (h : Twins R b s t) : s.atOptionalObject = t.atOptionalObject := by
  simp only [State.atOptionalObject, h.atObjectStart, h.sees, h.peek?]

theorem atExpressionStart (h : Twins R b s t) : s.atExpressionStart = t.atExpressionStart := by
  rw [State.atExpressionStart, State.atExpressionStart, h.current?]

theorem atPathStart (h : Twins R b s t) : s.atPathStart = t.atPathStart := by
  simp only [State.atPathStart, h.sees, h.peek?]

theorem atBlockEnd (h : Twins R b s t) : atBlockEnd s = atBlockEnd t := by
  simp only [Grammar.atBlockEnd, h.sees, h.atEnd]

end Twins

theorem startsStep_congr {ts us : List Token} (h : ts.map (·.lexeme) = us.map (·.lexeme)) :
    State.startsStep ts = State.startsStep us := by
  match ts, us with
  | [], us => simp_all
  | [t], us => 
    cases us with
    | nil => simp at h
    | cons u us => simp_all [State.startsStep]
  | t :: t' :: ts, us =>
    match us with
    | [] | [_] => simp at h
    | u :: u' :: us =>
      simp only [List.map_cons, List.cons.injEq] at h
      simp only [State.startsStep, h.1, h.2.1]

namespace Twins

variable {R : Regime} {b : Bool} {s t : State}

theorem atStepStart (h : Twins R b s t) : s.atStepStart = t.atStepStart :=
  startsStep_congr h.lexemes

theorem after_cons (h : Twins R b s t) {x : Token} {ts : List Token} (hs : s.after = x :: ts) :
    ∃ y us, t.after = y :: us ∧ x.lexeme = y.lexeme ∧ R.Same x.span y.span ∧ R.Same ts us := by
  have hafter := h.after
  rw [hs, same_cons_left] at hafter
  obtain ⟨y, us, ht, hxy, hsame⟩ := hafter
  exact ⟨y, us, ht, (same_token.1 hxy).1, (same_token.1 hxy).2, hsame⟩

theorem currentSpan (h : Twins R b s t) : R.Same s.currentSpan t.currentSpan := by
  cases hs : s.after with
  | nil =>
    have ht := h.after
    rw [hs, same_nil_left] at ht
    simpa [State.currentSpan, hs, ht] using h.stop
  | cons x ts =>
    obtain ⟨y, us, ht, _, hspan, _⟩ := h.after_cons hs
    simpa [State.currentSpan, hs, ht] using hspan

theorem previousSpan (h : Twins R true s t) : R.Same s.previousSpan t.previousSpan := by
  obtain ⟨us, us', hs, ht, hsame, hstarted⟩ := h.before
  obtain ⟨u, us, rfl⟩ := List.exists_cons_of_ne_nil (hstarted rfl)
  obtain ⟨u', us', rfl, hu, _⟩ := same_cons_left.1 hsame
  simpa [State.previousSpan, hs, ht] using (same_token.1 hu).2

theorem atNegativeNumber (h : Twins R b s t) : s.atNegativeNumber = t.atNegativeNumber := by
  match hs : s.after with
  | [] | [x] =>
    have hlexemes := congrArg List.length h.lexemes
    match ht : t.after with
    | [] | [_] => simp [State.atNegativeNumber, hs, ht]
    | _ :: _ :: _ => simp [hs, ht] at hlexemes
  | x :: x' :: ts =>
    obtain ⟨y, us, ht, hlexeme, _, hrest⟩ := h.after_cons hs
    obtain ⟨y', us', rfl, hy', _⟩ := same_cons_left.1 hrest
    have hseam := h.seams
    rw [hs, ht] at hseam
    simp only [State.atNegativeNumber, hs, ht, hlexeme, (same_token.1 hy').1]
    cases hminus : y.lexeme == .symbol .minus with
    | false => rfl
    | true =>
      cases hnumber : y'.lexeme.isSignable with
      | false => rfl
      | true =>
        have htouch :=
          hseam.1.1 (by rw [hlexeme, (same_token.1 hy').1, beq_iff_eq.1 hminus]; exact hnumber)
        rw [htouch]

theorem atInteger (h : Twins R b s t) : s.atInteger = t.atInteger := by
  simp only [State.atInteger, h.current?, h.peek?, h.atNegativeNumber]

theorem atLiteral (h : Twins R b s t) : s.atLiteral = t.atLiteral := by
  rw [State.atLiteral, State.atLiteral, h.current?, h.atNegativeNumber]

theorem unaryOp? (h : Twins R b s t) : unaryOp? s = unaryOp? t := by
  rw [Grammar.unaryOp?, Grammar.unaryOp?, h.current?, h.atNegativeNumber]

theorem advance (h : Twins R b s t) (hs : R.fence.Heads s) (hl : s.after ≠ []) :
    Twins R true s.advance t.advance := by
  obtain ⟨x, ts, hafter⟩ := List.exists_cons_of_ne_nil hl
  obtain ⟨y, us, hafter', hlexeme, hspan, hrest⟩ := h.after_cons hafter
  have hseams := h.seams
  rw [hafter, hafter'] at hseams
  obtain ⟨vs, vs', hbefore, hbefore', hsame, _⟩ := h.before
  have hleft : s.advance = { s with before := x :: s.before, after := ts } := by
    rw [State.advance, hafter]
  have hright : t.advance = { t with before := y :: t.before, after := us } := by
    rw [State.advance, hafter']
  have hfence := h.fence.advance hs
  rw [hleft] at hfence
  rw [hleft, hright]
  have hread : R.Same (x :: vs) (y :: vs') :=
    same_cons_left.2 ⟨y, vs', rfl, same_token.2 ⟨hlexeme, hspan⟩, hsame⟩
  exact
    { fence := hfence
      broken := h.broken
      after := hrest
      seams := hseams.2
      stop := h.stop
      before := ⟨x :: vs,
      y :: vs', by rw [hbefore, List.cons_append], by rw [hbefore', List.cons_append], hread,
        fun _ => List.cons_ne_nil _ _⟩
      log := h.log }

theorem report (h : Twins R b s t) {ds ds' : List Diagnostic} (hds : R.Same ds ds')
    (hbound : ∀ d ∈ ds, d.span.start ≤ R.fence.bound) : Twins R b (s.report ds) (t.report ds') := by
  obtain ⟨es, es', hs, ht, hsame, hes⟩ := h.log
  refine { h with fence := h.fence.report ds, log :=
    ⟨es ++ ds, es' ++ ds', ?_, ?_, same_append hsame hds, ?_⟩ }
  · rw [State.report, hs, List.append_assoc]
  · rw [State.report, ht, List.append_assoc]
  · exact List.forall_mem_append.2 ⟨hes, hbound⟩

end Twins

end ApiScript.Grammar
