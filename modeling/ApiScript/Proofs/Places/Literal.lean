import ApiScript.Proofs.Numeral.Decoding
import ApiScript.Proofs.Places.Reader

set_option autoImplicit false
set_option relaxedAutoImplicit false
set_option synthInstance.maxSize 2000

/-!
Literals report in place: what is wrong with the text of a token stands in the token, a sign in
front of a number belongs to its text, and code embedded in a string is an excerpt of its own. The
numbers of tokens have values, but for integers that 64 bits do not hold.
-/

namespace ApiScript

private theorem Span.Shows.placed {source : String} {span : Span} {cs : List Char}
    (h : span.Shows source cs) {e : LexicalError} (he : e.At cs span.start) :
    (Diagnostic.ofLexical e).Placed source := by
  obtain ⟨text, offset, front, behind, hexcerpt, htext, rfl⟩ := h
  refine LexicalError.At.placed ?_ hexcerpt
  rw [htext]
  exact LexicalError.At.inside front behind he

namespace Grammar

variable {α : Type} {source : String} {s t : State}

private theorem State.Within.numeral (h : s.Within source) {kind : NumberClass} {raw : String}
    (hs : s.current? = some (.number kind raw)) : raw.toList ∈ Rule.numeral kind := by
  obtain ⟨next, rest, ha, hl⟩ := State.sees_iff.1 (State.sees_of_current? hs)
  obtain ⟨text, offset, he, hat⟩ := h.tokens
  exact Lexer.tokenize_numeral
    (List.mem_filter.1 (hat next (State.Sound.mem_after (by simp [ha]))).1).1 hl

private theorem LocatesAt.decoded_bind {β : Type} {r : Except LexicalError α} {f : α → Parser β}
    (h : s.Placed source) (herror : ∀ e, r = .error e → (Diagnostic.ofLexical e).Placed source)
    (hok : ∀ a, r = .ok a → LocatesAt source (f a) s) : LocatesAt source (decoded r >>= f) s := by
  refine .bind ?_ fun a t ha _ => ?_
  · cases r with
    | ok a => exact .pure h
    | error e => exact .throw h (herror e rfl)
  · obtain ⟨hr, rfl⟩ := reads_decoded.1 ha
    exact hok a hr

private theorem LocatesAt.shown_bind {β : Type} {r : Except LexicalError α} {f : α → Parser β}
    [∀ a, Locates source (f a)] {span : Span} {cs : List Char} (h : s.Placed source)
    (hshows : span.Shows source cs)
    (herror : ∀ e, r = .error e → span.stop = span.start + Text.byteSize cs → e.At cs span.start) :
    LocatesAt source (decoded r >>= f) s :=
  .decoded_bind h (fun e he => hshows.placed (herror e he hshows.stop)) fun _ _ => Locates.locates h

private theorem LocatesAt.valued_bind {β : Type} {span : Span} {r : Span → Except LexicalError α}
    {f : α → Parser β} [∀ a, Locates source (f a)] (h : s.Placed source)
    (hvalue : ∃ a, ∀ span, r span = .ok a) :
    LocatesAt source (decoded (r span) >>= f) s := by
  obtain ⟨a, ha⟩ := hvalue
  refine .decoded_bind h (fun e he => ?_) fun _ _ => Locates.locates h
  rw [ha] at he
  cases he

private theorem LocatesAt.report_bind {ds : List Diagnostic} {f : Unit → Parser α}
    (h : LocatesAt source (f ()) (s.report ds)) :
    LocatesAt source (modify (·.report ds) >>= f) s := ⟨h.reads, h.fails⟩

section Readers

variable {inner : Inner} [Locates source (inner .expression)]

instance : Locates source (wholeExpression inner) := by
  unfold wholeExpression
  infer_instance

private theorem locatesAt_embedded (h : s.Placed source) {code : String} {offset : Nat}
    (he : Excerpt source code offset)
    (hbraces : Span.Over source.toList ⟨offset - 2, offset + Text.byteSize code.toList + 1⟩) :
    LocatesAt source (embedded inner code offset) s := by
  have hstart : (State.ofString code offset).Placed source := .ofString he
  have hwhole : LocatesAt source (wholeExpression inner) (State.ofString code offset) :=
    Locates.locates hstart
  unfold embedded
  dsimp only
  split
  · refine .report_bind (.throw (h.report hstart.log) (.plain ?_ rfl rfl))
    rwa [← Text.utf8ByteSize_eq] at hbraces
  · split
    · rename_i e finish hrun
      exact .report_bind (.pure (h.report (hwhole.reads hrun).log))
    · rename_i d finish hrun
      obtain ⟨hfinish, hd⟩ := hwhole.fails hrun
      exact .report_bind (.throw (h.report hfinish.log) hd)

private theorem locatesAt_stringParts (h : s.Placed source) {segments : List Quoted.Segment}
    (hsegments : ∀ code offset, .code code offset ∈ segments → Excerpt source code offset ∧
      Span.Over source.toList ⟨offset - 2, offset + Text.byteSize code.toList + 1⟩) :
    LocatesAt source (stringParts inner segments) s := by
  induction segments generalizing s with
  | nil => exact .pure h
  | cons segment segments ih =>
    have hrest {t : State} (ht : t.Placed source) := ih ht fun code offset hc =>
      hsegments code offset (List.mem_cons_of_mem _ hc)
    unfold stringParts
    cases segment with
    | text text => exact .bind (hrest h) fun _ _ _ ht => .pure ht
    | code code offset =>
      obtain ⟨he, hbraces⟩ := hsegments code offset (List.mem_cons_self ..)
      exact .bind (locatesAt_embedded h he hbraces) fun _ _ _ ht =>
        .bind (hrest ht) fun _ _ _ ht => .pure ht

instance (expected : Expectation) : Locates source (string inner expected) := by
  unfold string
  refine .get_bind fun s h => ?_
  dsimp only
  split
  · rename_i raw hs
    have hshows := h.within.shows hs (by simp)
    refine .decoded_bind h (fun e he => hshows.placed (Quoted.split_error_at he hshows.stop))
      fun segments hsplit => ?_
    refine .bind (locatesAt_stringParts h fun code offset hc => ⟨h.within.code hs hsplit hc, ?_⟩)
        fun _ _ _ ht =>
      Locates.locates ht
    obtain ⟨next, rest, ha, hl⟩ := State.sees_iff.1 (State.sees_of_current? hs)
    obtain ⟨text, start, he, hat⟩ := h.within.tokens
    simp only [State.currentSpan, ha] at hsplit
    exact he.braced (hat next (State.Sound.mem_after (by simp [ha]))).2 hl hsplit hc
  · have hshows := h.within.shows ‹_› (by simp)
    exact .shown_bind h hshows fun _ => Quoted.decodeSimple_error_at
  · exact .unexpected h

instance : Locates source (literal inner) := by
  unfold literal
  refine .get_bind fun s h => ?_
  have hadvance := h.advance
  cases hsign : s.atNegativeNumber with
  | true =>
    simp only [↓reduceIte]
    refine .advance_bind (.get_bind ?_)
    split
    · rename_i raw hs
      obtain ⟨v, hv⟩ :=
        Numeral.spells_of_numeral (show "-" ∈ ["", "-"] by decide) (hadvance.within.numeral hs)
      exact .shown_bind hadvance (h.within.shows_signed hsign hs) fun _ =>
        Numeral.integer_error_at hv
    · exact .valued_bind hadvance
        (Numeral.float_of_numeral (by decide) (hadvance.within.numeral ‹_›))
    -- Nothing but an integer or a float stands behind a sign.
    all_goals first
    | exact Bool.noConfusion (State.current?_behind_minus hsign ‹_›)
    | exact .unexpected hadvance
  | false =>
    simp only [Bool.false_eq_true, ↓reduceIte]
    refine .get_bind ?_
    rw [Span.merge_self]
    split
    · rename_i raw hs
      obtain ⟨v, hv⟩ :=
        Numeral.spells_of_numeral (show "" ∈ ["", "-"] by decide) (h.within.numeral hs)
      rw [String.empty_append] at hv ⊢
      exact .shown_bind h (h.within.shows hs (by simp)) fun _ => Numeral.integer_error_at hv
    · exact .valued_bind h (Numeral.float_of_numeral (by decide) (h.within.numeral ‹_›))
    · exact .valued_bind h (Numeral.duration_of_numeral (h.within.numeral ‹_›))
    · exact .valued_bind h (Numeral.size_of_numeral (h.within.numeral ‹_›))
    · have hshows := h.within.shows ‹_› (by simp)
      exact .shown_bind h hshows fun _ => Quoted.decodeBytes_error_at
    · exact Locates.locates h
    · exact .advance_bind (.pure hadvance)
    · exact .advance_bind (.pure hadvance)
    · exact .advance_bind (.pure hadvance)
    · exact .unexpected h

end Readers

end Grammar

end ApiScript
