import ApiScript.Proofs.Reprint.Follow

set_option autoImplicit false
set_option relaxedAutoImplicit false
set_option synthInstance.maxSize 2000

/-!
Items with commas between them are read again if each of them is. A comma behind the last item is
not written, so that it may be missing there.
-/

namespace ApiScript.Grammar

open Piece Placed

variable {α : Type} [Placed α] {s t u : State} {code : Bool} {n m : Nat} {qs : List Piece}

theorem same_cons {a a' : α} {as as' : List α} (h : Same a a') (hs : Same as as') :
    Same (a :: as) (a' :: as') :=
  congrArg₂ List.cons h hs

theorem same_prod {β : Type} [Placed β] {a a' : α} {b b' : β} (ha : Same a a') (hb : Same b b') :
    Same (a, b) (a', b') := Prod.ext ha hb

omit [Placed α] in
theorem Hears.of_reads {p : Parser α} [Advances p] {a : α} (h : Reads p s a t) (k : Reaches t u)
    (hs : s.Spelled) (hlog : u.log = s.log) : Hears p s a t ∧ t.Spelled ∧ u.log = t.log := by
  have hfirst := (Advances.reads h).log
  have ht : t.log = s.log := (hfirst.eq_of_length_le (hlog ▸ k.log.length_le)).symm
  exact ⟨⟨h, hs, ht⟩, hs.reaches (Advances.reads h), hlog.trans ht.symm⟩

section Delimited

variable {delimiter : Delimiter} {trailing : Bool} {item : Parser α} {layout : α → List Piece}
  {follows : State → List Piece → Prop}

/-- The readers of items that follow each other, up to a closer: each item is written and read again
where a comma or the closer is behind it, and none begins with the closer. -/
structure Separates (code : Bool) (delimiter : Delimiter) (trailing : Bool) (item : Parser α)
    (layout : α → List Piece) (follows : State → List Piece → Prop) (as : List α) (n : Nat)
    (qs : List Piece) : Prop where
  comma {t : State} {ps : List Piece} :
    t.sees (.symbol .comma) = true → follows t (symbol .comma :: space :: ps)
  closer {t : State} : t.sees delimiter.closer = true ∨ trailing = true ∧
    t.sees (.symbol .comma) = true →
    follows t (lexeme delimiter.closer :: qs)
  each {a : α} {s t : State} {ps : List Piece} : a ∈ as → Hears item s a t → follows t ps →
    Echo code item a n (layout a ++ ps) n ps
  opens {a : α} {u v : State} : Reads item u a v → u.sees delimiter.closer = false
  shown {u : State} : u.Shows (lexeme delimiter.closer :: qs) →
    u.current? = some delimiter.closer ∧ u.advance.Shows qs

private theorem Separates.tail {a : α} {as : List α}
    (h : Separates code delimiter trailing item layout follows
    (a :: as) n qs) : Separates code delimiter trailing item layout follows as n qs :=
  { h with each := fun ha => h.each (List.mem_cons_of_mem _ ha) }

private abbrev behindItem (delimiter : Delimiter) (layout : α → List Piece) (as : List α)
    (qs : List Piece) : List Piece :=
  Piece.comma (!as.isEmpty) ++ (commaSeparated layout as ++ lexeme delimiter.closer :: qs)

omit [Placed α] in
private theorem commaSeparated_append {a : α} {as : List α} (ps : List Piece) :
    commaSeparated layout (a :: as) ++ ps = layout a ++ (Piece.comma (!as.isEmpty) ++
      (commaSeparated layout as ++ ps)) := by
  rw [commaSeparated, List.append_assoc, List.append_assoc]

variable [Advances item]

private theorem echo_continues {as : List α}
    (hall : Separates code delimiter trailing item layout follows as n qs)
    (h : Continues delimiter.closer trailing item s as t) (hs : s.Spelled) (hlog : t.log = s.log)
    (hend : t.sees delimiter.closer = true) :
    follows s (behindItem delimiter layout as qs) ∧
      (Written code n (lexeme delimiter.closer :: qs) →
      Written code n (behindItem delimiter layout as qs)) ∧
      ∀ u : State, u.Shows (behindItem delimiter layout as qs) → ∃ as' v,
        Continues delimiter.closer trailing item u as' v ∧ Same as as' ∧
        v.Shows (lexeme delimiter.closer :: qs) ∧
          v.log = u.log := by
  have hnone {as : List α} (has : as = []) {s : State}
      (hs : s.sees delimiter.closer = true ∨ trailing = true ∧ s.sees (.symbol .comma) = true)
      (hall : Separates code delimiter trailing item layout follows as n qs) :
      follows s (behindItem delimiter layout as qs) ∧
      (Written code n (lexeme delimiter.closer :: qs) →
      Written code n (behindItem delimiter layout as qs)) ∧
      ∀ u : State, u.Shows (behindItem delimiter layout as qs) → ∃ as' v,
        Continues delimiter.closer trailing item u as' v ∧ Same as as' ∧
        v.Shows (lexeme delimiter.closer :: qs) ∧
          v.log = u.log := by
    subst has
    refine ⟨hall.closer hs, id, fun u hu => ⟨[], u, .bare ?_, rfl, hu, rfl⟩⟩
    rw [State.sees, (hall.shown hu).1]
    cases delimiter <;> decide
  induction h with
  | bare => exact hnone rfl (.inl hend) hall
  | comma hcomma allowed => exact hnone rfl (.inr ⟨allowed, hcomma⟩) hall
  | @more s s₁ t a as hcomma hopen ha rest ih =>
    have hreach := rest.reaches
    obtain ⟨hear, hs₁, hlog₁⟩ := Hears.of_reads ha hreach hs.advance (hlog.trans s.log_advance.symm)
    obtain ⟨hfollows, hwritten, hanswers⟩ := ih hall.tail hs₁ hlog₁ hend
    have hecho := hall.each List.mem_cons_self hear hfollows
    have hpieces : behindItem delimiter layout (a :: as) qs =
        symbol .comma :: space :: (layout a ++ behindItem delimiter layout as qs) := by
      rw [behindItem, commaSeparated_append]
      rfl
    rw [hpieces]
    refine ⟨hall.comma hcomma, fun hqs =>
      (hecho.written (hwritten hqs)).space.fixed (by decide) rfl, fun u hu => ?_⟩
    have hsees : u.sees (.symbol .comma) = true := by rw [hu.sees (by decide), beq_self_eq_true]
    obtain ⟨a', v, ha', hsame, hv, hlogv⟩ := hecho.answers (hu.advance (by decide)).space
    obtain ⟨as', w, has', hsames, hw, hlogw⟩ := hanswers v hv
    refine ⟨a' :: as', w, .more hsees ?_ ha' has', same_cons hsame hsames, hw, ?_⟩
    · rw [hall.opens ha']
      exact fun h => Bool.false_ne_true h.2
    · rw [hlogw, hlogv, State.log_advance]

/-- Items are read again up to their closer. -/
theorem Echo.delimited {opener opener' : Span} {r : List α × Span}
    (hall : Separates code delimiter trailing item layout follows r.1 n qs)
    (h : Hears (delimited delimiter trailing opener item) s r t)
    (hw : Written code m qs → Written code n (lexeme delimiter.closer :: qs)) :
    Echo code (Grammar.delimited delimiter trailing opener' item) r n
      (commaSeparated layout r.1 ++ lexeme delimiter.closer :: qs) m qs := by
  obtain ⟨hread, hs, hlog⟩ := h
  rcases reads_delimited.1 hread with ⟨_, rfl, rfl⟩ | ⟨_, a, s₁, as, s₂, ha, has, hend, rfl, rfl⟩
  · refine ⟨hw, fun {u} hu => ?_⟩
    obtain ⟨hcurrent, hadvance⟩ := hall.shown hu
    exact ⟨([], u.currentSpan), u.advance,
      reads_delimited.2 (.inl ⟨by simp [State.sees, hcurrent], rfl, rfl⟩), rfl,
      hadvance, u.log_advance⟩
  · rw [State.log_advance] at hlog
    obtain ⟨hear, hs₁, hlog₁⟩ := Hears.of_reads ha has.reaches hs hlog
    obtain ⟨hfollows, hwritten, hanswers⟩ := echo_continues hall.tail has hs₁ hlog₁ hend
    have hecho := hall.each List.mem_cons_self hear hfollows
    rw [commaSeparated_append]
    refine ⟨fun hqs => hecho.written (hwritten (hw hqs)), fun {u} hu => ?_⟩
    obtain ⟨a', v, ha', hsame, hv, hlogv⟩ := hecho.answers hu
    obtain ⟨as', w, has', hsames, hw', hlogw⟩ := hanswers v hv
    obtain ⟨hcurrent, hadvance⟩ := hall.shown hw'
    have hsees : w.sees delimiter.closer = true := by simp [State.sees, hcurrent]
    refine ⟨(a' :: as', w.currentSpan), w.advance, reads_delimited.2
      (.inr ⟨?_, a', v, as', w, ha', has', hsees, rfl, rfl⟩),
      same_prod (same_cons hsame hsames) rfl, hadvance, ?_⟩
    · rw [hall.opens ha']
      exact Bool.false_ne_true
    · rw [State.log_advance, hlogw, hlogv]

omit [Placed α] [Advances item] in
theorem shown_closer (hbar : delimiter ≠ .bar) (hu : u.Shows (lexeme delimiter.closer :: qs)) :
    u.current? = some delimiter.closer ∧ u.advance.Shows qs := by
  have hl : delimiter.closer ≠ .symbol .bar := by
    cases delimiter with
    | bar => exact absurd rfl hbar
    | _ => decide
  exact ⟨hu.current? hl, hu.advance hl⟩

omit [Advances item] in
theorem separates_closed {as : List α} (hdelimiter : delimiter = .parenthesis ∧
    trailing = false ∨ delimiter ∈ [.bracket, .brace])
    (hitem : ∀ {a : α} {s t : State} {ps : List Piece}, a ∈ as → Hears item s a t → Closed t ps →
      Echo code item a n (layout a ++ ps) n ps)
    (hopens : ∀ {a : α} {u v : State}, Reads item u a v → u.sees delimiter.closer = false) :
    Separates code delimiter trailing item layout Closed as n qs where
  comma ht := closed_of_sees (by decide) ht
  closer {t} ht := by
    rcases hdelimiter with ⟨rfl, rfl⟩ | hdelimiter
    · exact closed_of_sees (by decide) (ht.resolve_right fun h => Bool.false_ne_true h.1)
    · simp only [List.mem_cons, List.not_mem_nil, or_false] at hdelimiter
      rcases ht with ht | ⟨-, ht⟩ <;> rcases hdelimiter with rfl | rfl
      · exact closed_of_sees (by decide) ht
      · exact closed_of_sees (by decide) ht
      · exact ⟨.rightBracket, by decide, _, rfl, by rw [State.current?_of_sees ht]; rfl⟩
      · exact ⟨.rightBrace, by decide, _, rfl, by rw [State.current?_of_sees ht]; rfl⟩
  each := hitem
  opens := hopens
  shown hu := by
    refine shown_closer ?_ hu
    rintro rfl
    simp at hdelimiter

end Delimited

section Names

variable {delimiter : Delimiter} {expected : Expectation} {ns : List Name}

theorem Hears.isIdentifier {x : Name} (h : Hears (name expected) s x t) : x.IsIdentifier := by
  obtain ⟨hs, hcurrent, -⟩ := hears_name.1 h
  exact hs.current? hcurrent

private theorem names_eq_commaSeparated (ns : List Name) :
    Piece.names [symbol .comma, space] ns = commaSeparated (fun x => [Piece.name x]) ns := by
  induction ns with
  | nil => rfl
  | cons x ns ih =>
    cases ns with
    | nil => rfl
    | cons y ns =>
      rw [commaSeparated, ← ih]
      rfl

theorem Echo.names {opener opener' : Span} (h : Hears (names delimiter opener expected) s ns t)
    (hshown : ∀ u : State, u.Shows (lexeme delimiter.closer :: qs) →
    u.current? = some delimiter.closer ∧
    u.advance.Shows qs) (hw : Written code m qs → Written code n (lexeme delimiter.closer :: qs)) :
    Echo code (Grammar.names delimiter opener' expected) ns n
      (Piece.names [symbol .comma, Piece.space] ns ++ lexeme delimiter.closer :: qs) m qs := by
  simp only [Grammar.names, hears_bind, hears_pure] at h
  obtain ⟨⟨_, closer⟩, s₁, hlist, -, rfl, rfl⟩ := h
  rw [names_eq_commaSeparated]
  have hall : Separates code delimiter false (Grammar.name expected) (fun x => [Piece.name x])
      (fun _ ps => Bounds (render ps).toList) ns n qs :=
    { comma := fun _ => (detached_render rfl (by decide)).bounds
      closer := fun _ => by
        refine Detached.bounds ?_
        cases delimiter <;> exact detached_render rfl (by decide)
      each := fun _ hx hbounds => .name hx.isIdentifier hbounds
      opens := fun h => by
        obtain ⟨hcurrent, -⟩ := reads_name.1 h
        cases delimiter <;> simp [State.sees, hcurrent, Delimiter.closer]
      shown := hshown _ }
  exact (Echo.delimited (r := (ns, closer)) hall hlist hw).bind fun r hr =>
    .pure (congrArg Prod.fst hr)

end Names

section Chain

variable {step : Parser (Option Name)} {separator : List Piece} {ns first : List Name}

/-- The reader of one more name of a chain: it is read again behind the separator, and none is read
at the end. -/
structure Links (code : Bool) (step : Parser (Option Name)) (separator : List Piece) (n : Nat)
    (qs : List Piece) :
    Prop where
  productive {s t : State} {x : Name} : Reads step s (some x) t → t.after.length < s.after.length
  isIdentifier {s t : State} {x : Name} : Hears step s (some x) t → x.IsIdentifier
  more {x : Name} {ps : List Piece} : x.IsIdentifier → Bounds (render ps).toList →
    Echo code step (some x) n (separator ++ Piece.name x :: ps) n ps
  done : Echo code step none n qs n qs
  bounds (ps : List Piece) : Bounds (render (separator ++ ps)).toList
  ends : Bounds (render qs).toList

abbrev behindName (separator : List Piece) (ns : List Name) (qs : List Piece) : List Piece :=
  (ns.flatMap fun x => separator ++ [Piece.name x]) ++ qs

theorem names_append (x : Name) :
    Piece.names separator (x :: ns) ++ qs = Piece.name x :: behindName separator ns qs := by
  rw [names_cons, List.cons_append]

theorem behindName_cons (x : Name) :
    behindName separator (x :: ns) qs = separator ++ Piece.name x ::
    behindName separator ns qs := by
  rw [behindName, List.flatMap_cons, List.append_assoc, List.append_assoc, List.singleton_append]

theorem bounds_behindName (hall : Links code step separator n qs) (ns : List Name) :
    Bounds (render (behindName separator ns qs)).toList := by
  cases ns with
  | nil => exact hall.ends
  | cons x ns =>
    rw [behindName_cons]
    exact hall.bounds _

variable [Advances step]

private theorem echo_collects (hall : Links code step separator n qs) (h : Collects step s ns t)
    (hs : s.Spelled) (hlog : t.log = s.log) :
    (Written code n qs → Written code n (behindName separator ns qs)) ∧
      ∀ u : State, u.Shows (behindName separator ns qs) → ∃ ns' v,
        Collects step u ns' v ∧ Same ns ns' ∧ v.Shows qs ∧ v.log = u.log := by
  induction h with
  | done =>
    refine ⟨id, fun u hu => ?_⟩
    obtain ⟨x, v, hx, hsame, hv, hquiet⟩ := hall.done.answers hu
    cases x with
    | none => exact ⟨[], v, .done hx, rfl, hv, hquiet⟩
    | some x => cases hsame
  | @more s s₁ t x ns hx rest ih =>
    obtain ⟨hear, hs₁, hlog₁⟩ := Hears.of_reads hx rest.reaches hs hlog
    obtain ⟨hwritten, hanswers⟩ := ih hs₁ hlog₁
    have hecho := hall.more (hall.isIdentifier hear) (bounds_behindName hall ns)
    rw [behindName_cons]
    refine ⟨fun hqs => hecho.written (hwritten hqs), fun u hu => ?_⟩
    obtain ⟨x', v, hx', hsame, hv, hlogv⟩ := hecho.answers hu
    obtain ⟨ns', w, hns', hsames, hw, hlogw⟩ := hanswers v hv
    cases x' with
    | none => cases hsame
    | some x' =>
      exact ⟨x' :: ns', w, .more hx' hns', same_cons (Option.some.inj hsame) hsames, hw,
        hlogw.trans hlogv⟩

theorem Echo.collect (hall : Links code step separator n qs)
    (h : Hears (collect step first) s ns t) :
    ∃ rest, ns = first ++ rest ∧ ∀ first', Same first first' →
      Echo code (Grammar.collect step first') ns n (behindName separator rest qs) n qs := by
  obtain ⟨hread, hs, hlog⟩ := h
  obtain ⟨rest, rfl, hrest⟩ := (reads_collect hall.productive).1 hread
  obtain ⟨hwritten, hanswers⟩ := echo_collects hall hrest hs hlog
  refine ⟨rest, rfl, fun first' hfirst => ⟨hwritten, fun {u} hu => ?_⟩⟩
  obtain ⟨ns', v, hns', hsame, hv, hquiet⟩ := hanswers u hu
  refine ⟨first' ++ ns', v, (reads_collect hall.productive).2 ⟨ns', rfl, hns'⟩, ?_, hv, hquiet⟩
  simp only [Same, respan, List.map_append] at hfirst hsame ⊢
  rw [hfirst, hsame]

end Chain

end ApiScript.Grammar
