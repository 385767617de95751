import ApiScript.Proofs.Pairing.Expression
import ApiScript.Proofs.Recovery.Level
import ApiScript.Proofs.Spans.Identity

set_option autoImplicit false
set_option relaxedAutoImplicit false

/-!
A script behind another text. Whatever goes wrong in the text in front, reading comes to the first
declaration of the script, and goes on from there as it does at the start of the script alone.
-/

namespace ApiScript

open Grammar Placed

namespace Grammar

section Front

variable {F : Fence} {s t : State}

abbrev Regime.self (F : Fence) : Regime where
  left := id
  right := id
  merge h k := by rw [id, id] at h k; rw [h, k]
  within h _ _ := by rw [id, id] at h; rw [h]
  fence := F
  before := []
  before' := []
  log := []
  log' := []

private theorem Twins.self (hs : F.Holds s) (hbefore : s.before = [])
    (hlog : ∀ d ∈ s.log, d.span.start ≤ F.bound) :
    Twins (.self F) false s s where
  fence := hs
  broken := rfl
  after := rfl
  seams := by
    have hseams := seams_map id id (fun _ _ => rfl) s.after
    rwa [Token.map_respan_id] at hseams
  stop := rfl
  before := ⟨[], [], hbefore, hbefore, rfl, nofun⟩
  log := ⟨s.log, s.log, rfl, rfl, rfl, hlog⟩

private theorem Listed.reach_fence {inner : Inner} (hinner : Alike inner inner)
    [∀ e, Advances (inner e)] (hopen : ¬F.Open) {items : List Item}
    (h : Listed .script State.atEnd (item inner) s items t) (hs : Twins (.self F) false s s) :
    ∃ front back u, items = front ++ back ∧ Listed .script State.atEnd (item inner) u back t ∧
    u.after = F.tokens ∧ Reaches s u ∧ Twins (.self F) false u u := by
  -- In front of the fence no declaration begins.
  have heads {s : State} (hs : Twins (.self F) false s s) (hafter : s.after ≠ F.tokens) :
      F.Heads s := by
    obtain ⟨xs, hxs⟩ := hs.fence
    cases xs with
    | nil => exact absurd hxs.after hafter
    | cons x xs =>
      intro l hl hdecl
      rw [Fence.current?_of_after hxs.after, Option.mem_some_iff] at hl
      have hplain := hxs.plain hopen x List.mem_cons_self
      rw [hl, hdecl] at hplain
      cases hplain
  induction h with
  | @done s hend =>
    obtain ⟨xs, hxs⟩ := hs.fence
    have hnil : s.after = [] := by simpa [State.atEnd] using hend
    rw [hxs.after, List.append_eq_nil_iff] at hnil
    exact absurd hnil.2 hopen
  | @read s u t a as hend ha rest ih =>
    by_cases hafter : s.after = F.tokens
    · exact ⟨[], a :: as, s, rfl, .read hend ha rest, hafter, .refl s, hs⟩
    · obtain ⟨_, hu⟩ := (agree_item hinner (heads hs hafter) hs).reads ha ha
      obtain ⟨front, back, v, rfl, hback, hfence, hreach, hv⟩ :=
        ih (hu.weaken (absurd · Bool.false_ne_true))
      exact ⟨a :: front, back, v, rfl, hback, hfence, (Advances.reads ha).trans hreach, hv⟩
  | @resume s u t d as hend hd rest ih =>
    by_cases hafter : s.after = F.tokens
    · exact ⟨[], as, s, rfl, .resume hend hd rest, hafter, .refl s, hs⟩
    · obtain ⟨hd', hu⟩ := (agree_item hinner (heads hs hafter) hs).fails hd hd
      have hreported : Twins (.self F) false (u.report [d]) (u.report [d]) :=
        hu.report rfl fun e he => List.mem_singleton.1 he ▸ hd'.bound
      have hfailed : Reaches s (u.report [d]) := (Advances.fails hd).trans (.report _ _)
      obtain ⟨front, back, v, hitems, hback, hfence, hreach, hv⟩ :=
        ih (hs.recover (heads hs hafter) hfailed hreported .script)
      exact ⟨front, back, v, hitems, hback, hfence,
        hfailed.trans ((Reaches.recover _ _ _).trans hreach), hv⟩

end Front

section Back

/-- A text read from some state on, beside the text alone, whose places are `k` less. -/
abbrev Regime.behind (s : State) (k : Nat) : Regime where
  left := id
  right := .shift k
  merge {a a' b b'} h k := by
    rw [id_eq] at h k ⊢
    rw [h, k]
    simp only [Span.merge, Span.shift, Nat.add_min_add_right, Nat.add_max_add_right]
  within {a a'} h i j := by
    rw [id_eq] at h ⊢
    rw [h]
    simp only [Span.shift, Nat.add_right_comm]
  fence := .atEnd s.area.stop
  before := s.before
  before' := []
  log := s.log
  log' := []

/-- Where just the tokens of a text are ahead, and what is wrong with them is reported last, reading
goes on as at the start of the text. -/
theorem twins_behind {s : State} {source : String} {k : Nat} {log : List Diagnostic}
    (hafter : s.after = (State.ofString source 0).after.map (Token.respan (.shift k)))
    (hstop : s.area.stop = source.utf8ByteSize + k)
    (hbroken : s.broken = (State.ofString source 0).broken)
    (hlog : s.log = log ++ (State.ofString source 0).log.map (Diagnostic.respan (.shift k))) :
    Twins { Regime.behind s k with log } false s (State.ofString source 0) where
  fence := by
    refine ⟨s.after, (List.append_nil _).symm, fun x hx => ?_, fun _ => Nat.le_refl _, fun h =>
      absurd rfl h, fun h => absurd rfl h, fun h => absurd rfl h⟩
    rw [hafter] at hx
    obtain ⟨t, ht, rfl⟩ := List.mem_map.1 hx
    have hsize := State.ofString_size_le ht
    simp only [Token.respan, Span.shift, hstop, Text.utf8ByteSize_eq source]
    omega
  broken := hbroken
  after := by
    have hsame := (Token.map_respan_id s.after).trans hafter
    exact hsame
  seams := by
    have hseams :=
      seams_map (.shift k) id (fun a b => Span.touches_shift a b k) (State.ofString source 0).after
    rwa [← hafter, Token.map_respan_id] at hseams
  stop := by
    simp only [Regime.Same, respan, id_eq, hstop, Span.shift, Span.point, State.ofString,
      Nat.zero_add]
  before := ⟨[], [], rfl, rfl, rfl, nofun⟩
  log := by
    refine ⟨_, _, hlog, (List.nil_append _).symm, Diagnostic.map_respan_id _, fun d hd => ?_⟩
    obtain ⟨e, he, rfl⟩ := List.mem_map.1 hd
    have hle := State.ofString_log_le he
    rw [Nat.zero_add, ← Text.utf8ByteSize_eq] at hle
    simp only [Diagnostic.respan, Span.shift, hstop]
    omega

theorem Listed.behind {source : String} {limit k : Nat} {log : List Diagnostic}
    {items items' : List Item} {s u v : State}
    (h : Twins { Regime.behind s k with log } false s (State.ofString source 0))
    (hitems : Listed .script State.atEnd (item (enter limit limit)) s items u)
    (hitems' : Listed .script State.atEnd (item (enter limit limit)) (State.ofString source 0)
      items' v) :
    items = items'.map (Item.respan (.shift k)) ∧
        u.log = log ++ v.log.map (Diagnostic.respan (.shift k)) := by
  have hagree := agree_items (R := { Regime.behind s k with log }) (alike_enter limit limit) rfl h
  obtain ⟨hsame, hend⟩ := hagree.reads ((reads_statements fun _ h => h).2 hitems)
    ((reads_statements fun _ h => h).2 hitems')
  obtain ⟨ds, ds', hds, hds', hlogs, _⟩ := hend.log
  have hleft : items.map (Item.respan id) = items := by
    rw [← Item.respanAll_eq_map, Item.respanAll_id]
  have hlogs' : ds.map (Diagnostic.respan id) = ds'.map (Diagnostic.respan (.shift k)) := hlogs
  rw [List.nil_append] at hds'
  rw [Diagnostic.map_respan_id] at hlogs'
  exact ⟨hleft.symm.trans hsame, by rw [hds, hds', hlogs']⟩

theorem State.ofString_line {front : String} (back : String)
    (h : (State.ofString front 0).broken = false) :
    let k := front.utf8ByteSize + 1
    (State.ofString (front ++ "\n" ++ back) 0).after =
        (State.ofString front 0).after ++ (State.ofString back 0).after.map
          (Token.respan (.shift k)) ∧
      (State.ofString (front ++ "\n" ++ back) 0).log =
        (State.ofString front 0).log ++ (State.ofString back 0).log.map
          (Diagnostic.respan (.shift k)) ∧
      (State.ofString (front ++ "\n" ++ back) 0).broken = (State.ofString back 0).broken ∧
      (State.ofString (front ++ "\n" ++ back) 0).area.stop = back.utf8ByteSize + k := by
  intro k
  obtain ⟨hafter, hlog, hbroken⟩ := State.ofString_shift back k
  have herrors : ∀ e ∈ (Lexer.ofString front 0).tokenize.2, e.isFatal = false := by
    simpa only [Bool.not_eq_true] using List.any_eq_false.1 h
  have htext : (front ++ "\n" ++ back).toList = front.toList ++ '\n' :: back.toList := by
    simp [String.toList_append]
  have htokenize := Lexer.tokenize_line back.toList herrors
  rw [Nat.zero_add, ← Text.utf8ByteSize_eq] at htokenize
  have hany : (Lexer.tokenize ⟨front.toList, 0⟩).2.any (·.isFatal) = false := h
  refine ⟨?_, ?_, ?_, ?_⟩
  · rw [← hafter]
    simp only [State.ofString, Lexer.ofString, Lexer.tokenizeFiltered, htext, htokenize,
      List.filter_append, k]
  · rw [← hlog]
    simp only [State.ofString, Lexer.ofString, Lexer.tokenizeFiltered, htext, htokenize,
      List.map_append, k]
  · rw [← hbroken]
    simp only [State.ofString, Lexer.ofString, Lexer.tokenizeFiltered, htext, htokenize,
      List.any_append, hany, Bool.false_or, k]
  · simp only [State.ofString, String.utf8ByteSize_append, k]
    have hline : "\n".utf8ByteSize = 1 := rfl
    omega

/-- The first declaration of a script is a fence behind a text whose brackets are closed, and that
declares nothing. -/
private theorem exists_fence {front back : String} {first : Token}
    (hsound : (State.ofString front 0).broken = false) (hnested : (State.ofString front 0).Nested)
    (hclosed : openers (State.ofString front 0).after.reverse = [])
    (hplain : ∀ t ∈ (State.ofString front 0).after, t.lexeme.opensDeclaration = false)
    (hlevel : Level (State.ofString back 0).after)
    (hfirst : (State.ofString back 0).after.head? = some first)
    (hdecl : first.lexeme.opensDeclaration = true)
    (hstep : State.startsStep (State.ofString back 0).after = false) :
    let k := front.utf8ByteSize + 1
    ∃ F : Fence, ¬F.Open ∧ F.tokens = (State.ofString back 0).after.map (Token.respan (.shift k)) ∧
      F.bound = (first.span.shift k).start ∧
      F.Holds (State.ofString (front ++ "\n" ++ back) 0) := by
  intro k
  have hafter := (State.ofString_line back hsound).1
  have hlexemes : ((State.ofString back 0).after.map (Token.respan (.shift k))).map (·.lexeme) =
      (State.ofString back 0).after.map (·.lexeme) := by
    rw [List.map_map]
    rfl
  obtain ⟨ts, hts⟩ := List.head?_eq_some_iff.1 hfirst
  let F : Fence :=
    { tokens := (State.ofString back 0).after.map (Token.respan (.shift k))
      bound := (first.span.shift k).start
      keyword := by
        rw [hts]
        rintro t ⟨⟩
        exact ⟨hdecl, Nat.le_refl _⟩
      declares := by rw [startsStep_congr hlexemes, hstep] }
  have hopen : ¬F.Open := by
    intro hopen
    have hnil := List.map_eq_nil_iff.1 hopen
    rw [hnil] at hts
    cases hts
  refine ⟨F, hopen, rfl, rfl, (State.ofString front 0).after, hafter, fun x hx => ?_, fun h =>
    absurd h hopen, fun _ => hplain, fun _ => ?_, fun _ => ?_⟩
  · refine Nat.le_trans (State.ofString_size_le hx) ?_
    rw [Nat.zero_add, ← Text.utf8ByteSize_eq]
    exact Nat.le_trans (Nat.le_succ _) (Nat.le_add_left _ _)
  · exact (congrArg openers (List.append_nil _)).trans hclosed
  · have hbehind := (hlevel.congr hlexemes.symm (State.ofString front 0).after.reverse).2
      (by simpa [State.Nested, State.tokens, State.ofString] using hnested)
    rw [← List.reverse_append, ← hafter] at hbehind
    exact State.nested_iff.2 ((congrArg Nests (List.append_nil _)).mpr hbehind)

end Back

section Declarations

variable {inner : Inner} {s t : State}

private theorem startsStep_of_reads_item {i : Item} (h : Reads (item inner) s i t)
    (hs : ∀ l ∈ s.current?, l.opensDeclaration = true) : State.startsStep s.after = false := by
  match hafter : s.after with
  | [] | [_] => rfl
  | x :: y :: rest =>
    have hcurrent : s.current? = some x.lexeme := Fence.current?_of_after hafter
    have hx : x.lexeme.opensDeclaration = true := hs _ hcurrent
    by_cases hprofile : x.lexeme = .keyword .profile
    · -- Of the keywords that begin a declaration this one alone may name a step, but then a
      -- colon follows.
      obtain ⟨d, _, hd, _⟩ := reads_bind.1 h
      unfold declaration? at hd
      rw [reads_get_bind, hcurrent, hprofile] at hd
      obtain ⟨_, _, hread, _⟩ := reads_bind.1 hd
      obtain ⟨_, _, hexpect, hread⟩ := reads_bind.1 hread
      obtain ⟨_, _, rfl⟩ := reads_expect.1 hexpect
      obtain ⟨n, _, hname, _⟩ := reads_bind.1 hread
      have hnext := (reads_name.1 hname).1
      have hy : y.lexeme = .identifier n.text := by
        simpa [State.advance, State.current?, State.peek?, hafter] using hnext
      simp [State.startsStep, hy]
    · cases hl : x.lexeme with
      | keyword k =>
        cases k <;> simp_all [State.startsStep, Lexeme.opensDeclaration, Keyword.opensDeclaration]
      | _ => simp [hl, Lexeme.opensDeclaration] at hx

private theorem Listed.first [∀ e, Advances (inner e)] [Consumes (inner .expression)]
    {items : List Item} (h : Listed .script State.atEnd (item inner) s items t) (hlog : t.log = [])
    (hs : s.after ≠ []) :
    ∃ i u, Reads (item inner) s i u := by
  cases h with
  | done hend => exact absurd (by simpa [State.atEnd] using hend) hs
  | read _ ha _ => exact ⟨_, _, ha⟩
  | @resume _ u _ d _ _ hd rest =>
    have hread := (reads_statements (fun _ h => h)).2 rest
    have hprefix := (Advances.reads hread).log
    rw [hlog, List.prefix_nil] at hprefix
    exact absurd hprefix (List.append_ne_nil_of_right_ne_nil u.log (List.cons_ne_nil d []))

end Declarations

end Grammar

/-- Where the brackets of a text are well nested and closed, and neither a fatal error nor a
declaration is in it, all that is wrong with it is told in front of the declaration behind it, and
the script that begins there is read as it is alone. -/
theorem parse_isolates (front back : String) (limit : Nat) (first : Token)
    (hsound : (State.ofString front 0).broken = false) (hnested : (State.ofString front 0).Nested)
    (hclosed : openers (State.ofString front 0).after.reverse = [])
    (hplain : ∀ t ∈ (State.ofString front 0).after, t.lexeme.opensDeclaration = false)
    (haccepted : (parse back limit).2 = [])
    (hfirst : (State.ofString back 0).after.head? = some first)
    (hdecl : first.lexeme.opensDeclaration = true) :
    (parse back limit).1.items.map (Item.respan (.shift (front.utf8ByteSize + 1))) <:+
        (parse (front ++ "\n" ++ back) limit).1.items ∧
      ∀ d ∈ (parse (front ++ "\n" ++ back) limit).2,
          d.span.start ≤ (first.span.shift (front.utf8ByteSize + 1)).start := by
  obtain ⟨finish, hread, hlog⟩ := reads_parse (front ++ "\n" ++ back) limit
  obtain ⟨finish', hread', hlog'⟩ := reads_parse back limit
  rw [hlog'] at haccepted
  have hback : (State.ofString back 0).log = [] := by
    have hprefix := (Advances.reads hread').log
    rwa [haccepted, List.prefix_nil] at hprefix
  have hlevel : Level (State.ofString back 0).after := by
    rw [State.ofString_after hback]
    exact parse_level back limit (hlog'.trans haccepted)
  obtain ⟨hafter, hlog₀, hbroken, hstop⟩ := State.ofString_line back hsound
  -- Both runs read statements.
  have hlisted :=
    (reads_script.1 hread).resolve_left fun h => by simp [hbroken, broken_of_log_nil hback] at h
  have hlisted' :=
    (reads_script.1 hread').resolve_left fun h => by simp [broken_of_log_nil hback] at h
  obtain ⟨ts, hts⟩ := List.head?_eq_some_iff.1 hfirst
  have hstep : State.startsStep (State.ofString back 0).after = false := by
    obtain ⟨i, u, hitem⟩ := hlisted'.2.1.first haccepted (by rw [hts]; exact List.cons_ne_nil _ _)
    refine startsStep_of_reads_item hitem fun l hl => ?_
    rw [Fence.current?_of_after hts, Option.mem_some_iff] at hl
    rwa [← hl]
  obtain ⟨F, hopen, htokens, hbound, hholds⟩ :=
    exists_fence hsound hnested hclosed hplain hlevel hfirst hdecl hstep
  -- In front of the declaration anything may fail.
  have hself : Twins (.self F) false (State.ofString (front ++ "\n" ++ back) 0)
      (State.ofString (front ++ "\n" ++ back) 0) := by
    refine .self hholds rfl fun d hd => ?_
    rw [hlog₀, hback, List.map_nil, List.append_nil] at hd
    have hle := State.ofString_log_le hd
    rw [Nat.zero_add, ← Text.utf8ByteSize_eq] at hle
    rw [hbound]
    exact Nat.le_trans (Nat.le_succ_of_le hle) (Nat.le_add_left _ _)
  obtain ⟨items, rest, u, hitems, hrest, hu, ⟨_, hreach⟩, hselfu⟩ :=
    hlisted.2.1.reach_fence (alike_enter limit limit) hopen hself
  -- From the declaration on, both runs do the same.
  have htwins : Twins (.behind u (front.utf8ByteSize + 1)) false u (State.ofString back 0) := by
    refine twins_behind (hu.trans htokens) ?_ ?_ (by rw [hback, List.map_nil, List.append_nil])
    · rw [hreach.area, hstop]
    · rw [hreach.broken, hbroken]
  obtain ⟨hrest', hfinish⟩ := hrest.behind htwins hlisted'.2.1
  refine ⟨⟨items, by rw [hitems, hrest']⟩, fun d hd => ?_⟩
  obtain ⟨es, _, hes, _, _, hbounds⟩ := hselfu.log
  rw [hlog, hfinish, haccepted, List.map_nil, List.append_nil, hes] at hd
  rw [← hbound]
  exact hbounds d hd

/-- A call in a block, a step and an array go wrong in front of a binding, which is read all the
same. -/
theorem parse_isolates_binding :
    (State.ofString "\x7b f(1 2) \x7d run \x7b 3 \x7d [4 5] #" 0).broken = false ∧
      (parse "\x7b f(1 2) \x7d run \x7b 3 \x7d [4 5] #" 8).2.length = 4 ∧
      (parse "let y = 4" 8).2 = [] ∧
      (parse "let y = 4" 8).1.items.map (Item.respan (.shift 29)) <:+
        (parse ("\x7b f(1 2) \x7d run \x7b 3 \x7d [4 5] #" ++ "\n" ++ "let y = 4") 8).1.items ∧
      ∀ d ∈ (parse ("\x7b f(1 2) \x7d run \x7b 3 \x7d [4 5] #" ++ "\n" ++ "let y = 4") 8).2,
          d.span.start ≤ 29 := by
  have hsound : (State.ofString "\x7b f(1 2) \x7d run \x7b 3 \x7d [4 5] #" 0).broken = false := by
    decide +kernel
  have haccepted : (parse "let y = 4" 8).2 = [] := by decide +kernel
  have hisolates := parse_isolates "\x7b f(1 2) \x7d run \x7b 3 \x7d [4 5] #" "let y = 4" 8
    ⟨.keyword .let_, ⟨0, 3⟩⟩ hsound (State.nested_iff.2 (by decide +kernel)) (by decide +kernel)
    (by decide +kernel)
    haccepted (by decide +kernel) rfl
  exact ⟨hsound, by decide +kernel, haccepted, hisolates⟩

end ApiScript
