import ApiScript.Proofs.Sequel.Carry

set_option autoImplicit false
set_option relaxedAutoImplicit false

/-!
Literals and patterns carry over. Code embedded in a string is a text of its own, with nothing
behind it, on the next level.
-/

namespace ApiScript.Grammar

/-- The parsers of the nodes one level deeper carry over wherever more is behind, and count that
level. -/
structure Carried (reach room : Nat) (inner inner' : Inner) : Prop where
  expression {K : Sequel} {s t : State} (h : K.Extends s t) :
    Carries K reach room 0 (fun e : Expr => e.nesting + 1) (inner .expression)
      (inner' .expression) s t
  operand {K : Sequel} {s t : State} (h : K.Extends s t) :
    Carries K reach room 0 (fun e : Expr => e.nesting + 1) (inner .operand) (inner' .operand) s t
  alternative {K : Sequel} {s t : State} (h : K.Extends s t) :
    Carries K reach room 0 (fun c : Conditional => c.nesting + 1) (inner .alternative)
      (inner' .alternative) s t
  block {K : Sequel} {s t : State} (h : K.Extends s t) :
    Carries K reach room 0 (fun b : Block => b.nesting + 1) (inner .block) (inner' .block) s t
  pattern {K : Sequel} {s t : State} (h : K.Extends s t) :
    Carries K reach room 0 (fun p : Pattern => p.nesting + 1) (inner .pattern) (inner' .pattern) s t

variable {α β : Type} {K : Sequel} {reach room taken : Nat} {s t : State}

section Tokens

variable {cost : β → Nat}

private theorem carries_decoded_bind {r : Except LexicalError α} {f g : α → Parser β}
    (hf : ∀ a, Carries K reach room taken cost (f a) (g a) s t) :
    Carries K reach room taken cost (decoded r >>= f) (decoded r >>= g) s t := by
  cases r with
  | ok a => exact hf a
  | error e => exact .fails fun b u hread => by simp [reads_bind, reads_decoded] at hread

theorem carries_token {a : β} (hcost : cost a = taken) (hs : s.after ≠ []) (h : K.Extends s t) :
    Carries K reach room taken cost (advance >>= fun _ => pure a) (advance >>= fun _ =>
      pure a) s t :=
  .advance_bind (.pure hcost (h.advance hs))

private theorem carries_skip {d : Prop} [Decidable d] {f g : State → Parser β} (hs : s.after ≠ [])
    (h : K.Extends s t)
    (hf : ∀ {u v : State}, K.Extends u v → Carries K reach room taken cost (f u) (g v) u v) :
    Carries K reach room taken cost (if d then advance >>= fun _ => get >>= f else get >>= f)
      (if d then advance >>= fun _ => get >>= g else get >>= g) s t :=
  .ite Iff.rfl (fun _ => .advance_bind (.get_bind (hf (h.advance hs)))) fun _ => .get_bind (hf h)

end Tokens

variable {inner inner' : Inner} (hinner : Carried reach room inner inner')
include hinner

private theorem carries_embedded (source : String) (offset : Nat) (h : K.Extends s t) :
    Carries K reach room 0 (fun e => e.nesting + 1) (embedded inner source offset)
      (embedded inner' source offset) s t := by
  intro e u hread
  obtain ⟨finish, hstart, hwhole, rfl⟩ := reads_embedded.1 hread
  obtain ⟨hbroken, he, hend⟩ := reads_wholeExpression.1 hwhole
  have hway := hinner.expression (.refl (State.ofString source offset)) e finish he
  have hclean (hlog : s.log ++ finish.log = s.log) :
      finish.log = (State.ofString source offset).log := by
    have hnil : finish.log = [] := List.append_right_eq_self.1 hlog
    have hkept := hway.kept
    rw [hnil, List.prefix_nil] at hkept
    rw [hnil, hkept]
  refine ⟨List.prefix_append _ _, fun _ => Nat.zero_le _, fun hlog => hway.le_reach (hclean hlog),
    fun hlog hroom => ?_⟩
  obtain ⟨finish', he', hfinish⟩ := hway.carry (hclean hlog) hroom
  obtain ⟨hafter, _, _, hlog'⟩ := Sequel.Extends.nothing_iff.1 hfinish
  refine ⟨t.report finish.log,
    reads_embedded.2 ⟨finish', hstart, reads_wholeExpression.2 ⟨hbroken, he', ?_⟩, ?_⟩,
    h.report finish.log⟩
  · rw [State.atEnd, hafter]
    exact hend
  · rw [hlog']

private theorem carries_stringParts (segments : List Quoted.Segment) (h : K.Extends s t) :
    Carries K reach room 0 StringPart.nestingAll (stringParts inner segments)
      (stringParts inner' segments) s t := by
  induction segments generalizing s t with
  | nil => exact .pure rfl h
  | cons segment segments ih =>
    cases segment with
    | text text =>
      unfold stringParts
      exact (ih h).bind fun parts u v h => .pure (Nat.zero_max _).symm h
    | code source offset =>
      unfold stringParts
      refine (carries_embedded hinner source offset h).bind fun e u v h =>
        (ih h).bind fun parts u v h => .pure ?_ h
      simp only [StringPart.nestingAll]
      omega

theorem carries_string (expected : Expectation) (h : K.Extends s t) :
    Carries K reach room 0 StringLiteral.nesting (string inner expected)
      (string inner' expected) s t := by
  refine .ahead fun hs => ?_
  unfold string
  refine .get_bind ?_
  dsimp only
  rw [h.current?_of_ne_nil hs, h.currentSpan hs]
  split
  · rename_i raw hraw
    refine carries_decoded_bind fun segments =>
      (carries_stringParts hinner segments h).bind_reads fun parts u v hread h => ?_
    refine carries_token ?_
      (State.ne_nil_of_current? ((stringParts_moves hread).current?.trans hraw)) h
    simp only [StringLiteral.nesting]
    omega
  · refine carries_decoded_bind fun text => carries_token ?_ hs h
    split <;> rfl
  · exact .unexpected

theorem carries_literal (h : K.Extends s t) :
    Carries K reach room 0 Literal.nesting (literal inner) (literal inner') s t := by
  refine .ahead fun hs => ?_
  unfold literal
  refine .get_bind ?_
  dsimp only
  rw [h.atNegativeNumber, h.currentSpan hs]
  generalize (if s.atNegativeNumber = true then "-" else "") = sign
  generalize s.currentSpan = start
  refine carries_skip hs h fun {u v} huv => ?_
  by_cases hu : u.after = []
  · rw [State.current?_of_nil hu]
    exact .unexpected
  · rw [huv.current?_of_ne_nil hu, huv.currentSpan hu]
    split
    · exact carries_decoded_bind fun value => carries_token rfl hu huv
    · exact carries_decoded_bind fun value => carries_token rfl hu huv
    · exact carries_decoded_bind fun value => carries_token rfl hu huv
    · exact carries_decoded_bind fun value => carries_token rfl hu huv
    · exact carries_decoded_bind fun value => carries_token rfl hu huv
    · exact (carries_string hinner _ huv).bind fun l _ _ h => .pure (Nat.zero_max _).symm h
    · exact carries_token rfl hu huv
    · exact carries_token rfl hu huv
    · exact carries_token rfl hu huv
    · exact .unexpected

private theorem carries_fieldPattern (h : K.Extends s t) :
    Carries K reach room 0 FieldPattern.nesting (fieldPattern inner) (fieldPattern inner') s t := by
  unfold fieldPattern
  refine (carries_name _ h).step fun key u v h => (carries_accept rfl h).step fun r u v h => ?_
  refine .ite Iff.rfl (fun _ => (hinner.pattern h).bind fun p u v h => .pure ?_ h) fun _ =>
    .pure rfl h
  exact (Nat.zero_max _).symm

private theorem carries_literalPattern (hs : s.after ≠ []) (h : K.Extends s t) :
    Carries K reach room 0 Pattern.nesting (literalPattern inner) (literalPattern inner') s t := by
  unfold literalPattern
  refine .get_bind ?_
  dsimp only
  rw [h.currentSpan hs]
  refine (carries_literal hinner h).bind fun l u v h => .get_bind ?_
  refine .ite (by rw [h.atRangeMark])
    (fun hmark => (carries_rangeMark hmark h).step fun inclusive u v h => .get_bind ?_)
    fun _ => .pure (Nat.zero_max _).symm h
  have finish {stop : Option Literal} {levels : Nat} {u v : State}
    (hlevels : levels = max l.nesting (stop.elim 0 Literal.nesting))
      (h : K.Extends u v) :
      Carries K reach room levels Pattern.nesting
        (get >>= fun w =>
          pure (Pattern.range (s.currentSpan.merge w.previousSpan) (some l) stop inclusive))
        (get >>= fun w =>
            pure (Pattern.range (s.currentSpan.merge w.previousSpan) (some l) stop inclusive)) u
                v := by
    refine .get_bind ?_
    rw [h.previousSpan]
    refine .pure ?_ h
    rw [hlevels]
    cases stop <;> rfl
  refine .ite (by rw [h.atLiteral]) (fun _ => ?_) fun _ => ?_
  · exact (carries_literal hinner h).bind fun stop u v h => finish (by rw [Nat.zero_max]; rfl) h
  · exact finish (by rw [Nat.zero_max, Option.elim_none, Nat.max_zero]) h

private theorem carries_openRangePattern (hs : s.atRangeMark = true) (h : K.Extends s t) :
    Carries K reach room 0 Pattern.nesting (openRangePattern inner)
      (openRangePattern inner') s t := by
  unfold openRangePattern
  refine .get_bind ((carries_rangeMark hs h).step fun inclusive u v huv => .get_bind ?_)
  rw [h.currentSpan (State.ne_nil_of_atRangeMark hs)]
  refine .ite (by rw [huv.atLiteral]) (fun _ => ?_) fun _ => .throw
  refine (carries_literal hinner huv).bind fun stop u v h => .pure ?_ h
  simp only [Pattern.nesting]

omit hinner in
private theorem carries_bracketed (delimiter : Delimiter) (opener : Span) {cost : α → Nat}
    {item item' : Parser α} [Advances item] [Advances item']
    (hitem : ∀ {s t}, K.Extends s t → Carries K reach room 0 cost item item' s t)
    (hs : s.after ≠ []) (h : K.Extends s t) :
    Carries K reach room 0 (fun r => highest cost r.1) (bracketed delimiter opener item)
      (bracketed delimiter opener item') s t := by
  intro r u hread
  have hway :=
    carries_delimited delimiter true opener hitem (h.advance hs) r u (reads_bracketed.1 hread)
  exact hway.from_advance.imp fun v _ hv => reads_bracketed.2 hv

theorem carries_pattern [∀ e, Advances (inner e)] [∀ e, Advances (inner' e)] (h : K.Extends s t) :
    Carries K reach room 0 Pattern.nesting (pattern inner) (pattern inner') s t := by
  unfold pattern
  refine .get_bind ?_
  dsimp only
  by_cases hs : s.after = []
  · have hliteral : s.atLiteral = false := by
      simp [State.atLiteral, State.atNegativeNumber, State.current?_of_nil hs, hs]
    rw [State.current?_of_nil hs]
    simp only [hliteral, Bool.false_eq_true, ↓reduceIte]
    exact .throw
  rw [h.current?_of_ne_nil hs, h.currentSpan hs]
  split
  · refine carries_token ?_ hs h
    split <;> rfl
  · exact carries_openRangePattern hinner (by simp [State.atRangeMark, State.sees, *]) h
  · exact carries_openRangePattern hinner (by simp [State.atRangeMark, State.sees, *]) h
  · refine (carries_bracketed .bracket _ (fun h => hinner.pattern h) hs h).bind fun r u v h =>
      .pure ?_ h
    rw [Nat.zero_max, Pattern.nesting, Pattern.nestingEach_eq]
  · refine (carries_bracketed .brace _ (fun h => carries_fieldPattern hinner h) hs h).bind
      fun r u v h => .pure ?_ h
    rw [Nat.zero_max, Pattern.nesting, FieldPattern.nestingAll_eq]
  · exact .ite (by rw [h.atLiteral]) (fun _ => carries_literalPattern hinner hs h) fun _ => .throw

end ApiScript.Grammar
