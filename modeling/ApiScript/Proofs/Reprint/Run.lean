import ApiScript.Proofs.Reprint.Block

set_option autoImplicit false
set_option relaxedAutoImplicit false
set_option synthInstance.maxSize 2000

/-!
Runs are read again from what they are written as: those of one operation with its arguments and
variations, and blocks of steps, paths and declarations.
-/

namespace ApiScript

open Piece Placed
open Node (Good)

def Lexeme.namesStep : Lexeme → Bool
  | .identifier _ | .keyword .profile | .keyword .run | .keyword .path => true
  | _ => false

private theorem Run.layoutItems_eq (indent : Nat) (items : List RunItem) :
    layoutItems indent items = items.flatMap fun i => line indent :: i.layout indent := by
  induction items with
  | nil => rfl
  | cons item items ih => rw [layoutItems, ih, List.flatMap_cons]

theorem Run.layout_head (indent : Nat) (r : Run) (qs : List Piece) :
    ∃ ps, r.layout indent ++ qs = keyword .run ::
    ps := by
  cases r with
  | inline s target args variations => exact ⟨_, by rw [layout.eq_def]; rfl⟩
  | block s items => cases items <;> exact ⟨_, by rw [layout]; rfl⟩

namespace Grammar

variable {inner : Inner} {s t u : State} {code bound : Bool} {indent n : Nat} {qs : List Piece}

section Inline

variable [∀ e, Advances (inner e)]

private theorem Echoes.variations (hi : Echoes inner) (indent n : Nat) {v : Option Variations}
    (h : Hears (variations? inner) s v t) (hgood : ∀ v' ∈ v, Good code (.variations v'))
    (hlikes : Likes t qs) :
    Echo code (variations? inner) v n (v.elim [] (fun v => space :: v.layout indent) ++ qs) n qs ∧
      Likes s (v.elim [] (fun v => space :: v.layout indent) ++ qs) := by
  unfold variations? at h ⊢
  simp only [hears_get, hears_bind, hears_ite, hears_pure, hears_accept, and_assoc, exists_and_left,
    exists_eq_left] at h
  obtain ⟨_, more, s₁, _, ⟨hwith, rfl, rfl⟩ | ⟨hwith, rfl, rfl⟩, h⟩ := h
  · obtain ⟨-, -, zip, s₂, hzip, axes, s₃, haxes, -, rfl, rfl⟩ := h.resolve_right fun h => h.1 rfl
    have hgoodAxes : Good code (.object axes) := (hgood _ rfl).children _ List.mem_cons_self
    have hobject := (hi.object haxes hgoodAxes false indent n qs).1
    have hlike (ps : List Piece) : Likes s (space :: keyword .with_ :: ps) :=
      .space (likes_lexeme (l := .keyword .with_) (by rw [State.current?_of_sees hwith]; rfl)
        (by simp) (by simp))
    rcases hzip with ⟨-, rfl, -⟩ | ⟨-, rfl, -⟩
    · rw [if_pos rfl, Option.elim_some, Variations.layout]
      simp only [List.cons_append, List.nil_append]
      refine ⟨.space (.get_bind fun u hu =>
        .accept (by simp) (.keyword_detached detached_space) ?_), hlike _⟩
      refine .ite_pos rfl
        (.space (.accept (by simp) (.keyword_detached detached_space) (.space ?_)))
      refine hobject.bind fun axes' haxes' => .pure ?_
      simp only [Same, respan, Option.map_some, Variations.respan, ↓reduceIte] at haxes' ⊢
      rw [haxes']
    · rw [if_neg Bool.false_ne_true, Option.elim_some, Variations.layout]
      simp only [List.cons_append, List.nil_append]
      refine ⟨.space (.get_bind fun u hu =>
        .accept (by simp) (.keyword_detached detached_space) ?_), hlike _⟩
      refine .ite_pos rfl (.space (.not_accept (fun v hv => ?_) ?_))
      · obtain ⟨ps, hps⟩ := axes.layout_head indent qs
        rw [hps] at hv
        rw [hv.sees (by simp)]
        rfl
      · refine hobject.bind fun axes' haxes' => .pure ?_
        simp only [Same, respan, Option.map_some, Variations.respan, Bool.false_eq_true,
          ↓reduceIte] at haxes' ⊢
        rw [haxes']
  · obtain ⟨-, -, rfl, rfl⟩ := h.resolve_left fun h => Bool.false_ne_true h.1
    refine ⟨.get_bind fun u hu =>
      .not_accept (fun v hv => ?_) (.ite_neg Bool.false_ne_true (.pure rfl)), hlikes⟩
    rw [(hlikes v hv).sees rfl]
    simpa using hwith

omit [∀ e, Advances (inner e)] in
private theorem bounds_elim {α : Type} {layout : α → List Piece} (a : Option α)
    (h : Bounds (render qs).toList) :
    Bounds (render (a.elim [] (fun a => space :: layout a) ++ qs)).toList := by
  cases a with
  | none => exact h
  | some a => exact detached_space.bounds

private theorem Echoes.inlineRun (hi : Echoes inner) (indent n : Nat) {r : Run} {start : Span}
    (h : Hears (inlineRun inner start) s r t)
    (hgood : Good code (.run r)) (hlikes : Likes t qs) (hbounds : Bounds (render qs).toList) : ∃ ps,
    r.layout indent ++ qs = keyword .run :: space :: ps ∧ (∃ x ps', ps = Piece.name x :: ps') ∧
      ∀ start', Echo code (Grammar.inlineRun inner start') r n ps n qs := by
  unfold Grammar.inlineRun at h ⊢
  simp only [upToHere, hears_bind, hears_pure, hears_ask, and_assoc, exists_and_left,
    exists_eq_left] at h
  obtain ⟨x, s₁, hx, args, s₂, hargs, variations, s₃, hvariations, -, -, rfl, rfl⟩ := h
  obtain ⟨hvaried, hbehind⟩ := hi.variations indent n hvariations
    (fun v hv => hgood.children _ (List.mem_append_right _ (Node.mem_ofOption hv))) hlikes
  obtain ⟨hobject, -⟩ := hi.optionalObject hargs (fun o ho => hgood.children _
    (List.mem_append_left _ (List.mem_cons_of_mem _ (Node.mem_ofOption ho)))) hbehind indent n
  have hlayout (span : Span) : (Run.inline span x args variations).layout indent ++ qs =
      keyword .run :: space :: Piece.name x :: (args.elim [] (fun o => space :: o.layout indent) ++
        (variations.elim [] (fun v => space :: v.layout indent) ++ qs)) := by
    cases args <;> cases variations <;> simp [Run.layout]
  refine ⟨_, hlayout _, ⟨x, _, rfl⟩, fun start' =>
    (Echo.name hx.isIdentifier (bounds_elim args (bounds_elim variations hbounds))).bind
      fun x' hx' => hobject.bind fun args' hargs' =>
        hvaried.bind fun variations' hvariations' =>
          Echo.ask.bind fun span' _ => .pure ?_⟩
  simp only [Same, respan, Run.respan_inline] at hx' hargs' hvariations' ⊢
  rw [hx', hargs', hvariations']

end Inline

section Steps

private theorem State.startsStep_cons (x y : Token) (rest : List Token) :
    State.startsStep (x :: y :: rest) = (x.lexeme.namesStep && y.lexeme == .symbol .colon) := rfl

private theorem State.atStepStart_iff : s.atStepStart = true ↔
    ∃ l, s.current? = some l ∧ l.namesStep = true ∧ s.peek? 1 = some (.symbol .colon) := by
  unfold State.atStepStart State.current? State.peek?
  rcases s.after with _ | ⟨x, _ | ⟨y, rest⟩⟩
  · simp [State.startsStep]
  · simp [State.startsStep]
  · simp only [State.startsStep_cons, Option.some.injEq, List.getElem?_cons_zero,
      List.getElem?_cons_succ, Option.map_some, Bool.and_eq_true, beq_iff_eq, exists_eq_left']

private theorem echo_stepName (code : Bool) (n : Nat) {x : Name} (hstep : s.atStepStart = true)
    (h : Hears stepName s x t) :
    ∃ l, s.current? = some l ∧ l.namesStep = true ∧ Piece.name x = lexeme l ∧ ∀ {ps},
    Bounds (render ps).toList →
      Echo code stepName x n (lexeme l :: ps) n ps := by
  obtain ⟨l, hs, hname, -⟩ := State.atStepStart_iff.1 hstep
  simp only [stepName, hears_bind, hears_get, hears_advance, hears_pure, and_assoc, exists_and_left,
    exists_eq_left, exists_const] at h
  obtain ⟨hspelled, -, -, rfl, rfl⟩ := h
  have hread {u : State} (hu : u.current? = some l) :
      Reads stepName u ⟨l.spelling, u.currentSpan⟩ u.advance := by
    simp only [stepName, reads_bind, reads_get, reads_advance, reads_pure, and_assoc,
      exists_and_left, exists_eq_left, exists_const, hu, Option.map_some, Option.getD_some]
    trivial
  have hbar : l ≠ .symbol .bar := by
    rintro rfl
    cases hname
  rw [hs, Option.map_some, Option.getD_some]
  refine ⟨l, rfl, hname, ?_, fun hbounds =>
    ⟨?_, fun {u} hu => ⟨_, _, hread (hu.current? hbar), rfl, hu.advance hbar,
    u.log_advance⟩⟩⟩
  · refine congrArg Piece.lexeme ?_
    have hwell := hspelled.current? hs
    unfold Lexeme.namesStep at hname
    split at hname
    · exact Lexeme.ofWord_eq_identifier.2 ⟨rfl, hwell.free⟩
    · rfl
    · rfl
    · rfl
    · cases hname
  · have hwell := hspelled.current? hs
    unfold Lexeme.namesStep at hname
    split at hname
    · exact .identifier hwell hbounds
    · exact .keyword hbounds
    · exact .keyword hbounds
    · exact .keyword hbounds
    · cases hname

variable [∀ e, Advances (inner e)] {i : RunItem}

private theorem State.peek?_three (s : State) : s.advance.advance.advance.current? = s.peek? 3 := by
  rw [State.current?, State.peek?_advance, State.peek?_advance, State.peek?_advance]

private theorem Echoes.step (hi : Echoes inner) (indent n : Nat) (hstep : s.atStepStart = true)
    (h : Hears (step inner) s i t) (hgood : Good code (.runItem i)) (hlikes : Likes t qs)
    (hbounds : Bounds (render qs).toList) :
    Echo code (Grammar.step inner) i n (i.layout indent ++ qs) n qs ∧
    Likes s (i.layout indent ++ qs) ∧
      ∀ u : State, u.Shows (i.layout indent ++ qs) →
        u.atStepStart = true ∧ u.atPathStart = s.atPathStart := by
  unfold Grammar.step at h ⊢
  simp only [upToHere, hears_get, hears_bind, hears_ite, hears_pure, hears_expect, hears_ask,
    and_assoc, exists_and_left, exists_eq_left] at h
  obtain ⟨x, s₁, hx, -, hcolon, operation, s₂, hoperation, h⟩ := h
  obtain ⟨l, hs, hname, hpiece, hecho⟩ := echo_stepName code n hstep hx
  have hbar : l ≠ .symbol .bar := by
    rintro rfl
    cases hname
  have hbrace : l ≠ .symbol .leftBrace := by
    rintro rfl
    cases hname
  have hlayout (span : Span) (args : Option Object) :
      (RunItem.step span x operation args).layout indent ++ qs =
        lexeme l :: symbol .colon :: space :: Piece.name operation ::
          (args.elim [] (fun o => space :: o.layout indent) ++ qs) := by
    rw [← hpiece]
    cases args <;> simp [RunItem.layout]
  have hfront {ps : List Piece} {rest : Name → Name → Parser RunItem}
      (hps : Bounds (render ps).toList)
      (hrest : ∀ x' operation', Same x x' → Same operation operation' →
        Echo code (rest x' operation') i n ps n qs) :
      Echo code (do
        let x' ← stepName
        let _ ← expect (.symbol .colon)
        let operation' ← name .operationName
        rest x' operation') i n
        (lexeme l :: symbol .colon :: space :: Piece.name operation :: ps) n qs :=
    (hecho (bounds_symbol .colon)).bind fun x' hx' =>
      (Echo.symbol_space (by decide)).bind fun _ _ =>
      (Echo.name hoperation.isIdentifier hps).bind fun operation' hoperation' =>
        hrest x' operation' hx' hoperation'
  have hback {args args' : Option Object} {x' operation' : Name} {span span' : Span}
    (hx : Same x x')
      (hoperation : Same operation operation') (hargs : Same args args') :
      Same (RunItem.step span x operation args) (.step span' x' operation' args') := by
    simp only [Same, respan, RunItem.respan_step] at hx hoperation hargs ⊢
    rw [hx, hoperation, hargs]
  have hlike (ps : List Piece) : Likes s (lexeme l :: ps) :=
    likes_lexeme (by rw [hs]; rfl) hbar hbrace
  -- the lexeme behind the operation tells a path from a step
  have hahead {ps : List Piece} {u : State} (hps : Likes s₂ ps)
      (hu : u.Shows (lexeme l :: symbol .colon :: space :: Piece.name operation :: ps)) :
      u.atStepStart = true ∧ u.atPathStart = s.atPathStart := by
    have hcurrent := hu.current? hbar
    have hpeek := peek?_of_shows hu hbar (by simp)
    rw [hoperation.isIdentifier.piece] at hu
    have hbehind := hps _ (((hu.advance hbar).advance (by simp)).space.advance (by simp))
    have harrow := hbehind.sees (l := .symbol .arrow) rfl
    obtain ⟨-, -, -, rfl⟩ := hears_name.1 hoperation
    simp only [stepName, hears_bind, hears_get, hears_advance, hears_pure, and_assoc,
      exists_and_left, exists_eq_left, exists_const] at hx
    obtain ⟨-, -, -, -, rfl⟩ := hx
    obtain ⟨l', hl', -, hpeek'⟩ := State.atStepStart_iff.1 hstep
    refine ⟨State.atStepStart_iff.2 ⟨l, hcurrent, hname, hpeek⟩, ?_⟩
    rw [State.sees, State.sees, State.peek?_three, State.peek?_three] at harrow
    rw [State.atPathStart, State.atPathStart, State.sees, State.sees, hcurrent, hs, hpeek, hpeek',
      harrow]
  obtain ⟨_, ⟨hat, args, s₃, hargs, -, -, -, rfl, rfl⟩ | ⟨hat, -, -, -, rfl, rfl⟩⟩ := h
  · have hgoodArgs : Good code (.object args) :=
      hgood.children _ (by simp [Node.children, Node.ofOption])
    obtain ⟨hobject, hbehind⟩ := hi.object hargs hgoodArgs false indent n qs
    rw [hlayout]
    refine ⟨hfront detached_space.bounds fun x' operation' hx' hoperation' => .get_bind fun u hu =>
      ?_, hlike _, fun u hu => hahead hbehind.space hu⟩
    obtain ⟨ps, hps⟩ := args.layout_head indent qs
    refine .ite_pos ?_ (.space (hobject.bind fun args' hargs' => ?_))
    · rw [Option.elim_some, List.cons_append, hps] at hu
      rw [hu.space.sees (by simp), beq_self_eq_true]
    · exact .bind (.pure (a := some args) (congrArg some hargs')) fun args' hargs' =>
        Echo.ask.bind fun span' _ =>
        .pure (hback hx' hoperation' hargs')
  · rw [hlayout]
    refine ⟨hfront hbounds fun x' operation' hx' hoperation' => .get_bind fun u hu =>
      .ite_neg ?_ ?_, hlike _, fun u hu => hahead hlikes hu⟩
    · rwa [(hlikes u hu).sees rfl]
    · exact .bind (.pure (a := none) rfl) fun args' hargs' => Echo.ask.bind fun span' _ => .pure
        (hback hx' hoperation' hargs')

end Steps

section Paths

variable {i : RunItem}

private theorem Collects.last {step : Parser (Option Name)} {ns : List Name}
    (h : Collects step s ns t) :
    ∃ u, Reads step u none t := by
  induction h with
  | done h => exact ⟨_, h⟩
  | more _ _ ih => exact ih

private abbrev pathLink : Parser (Option Name) := do
  if ← accept (.symbol .arrow) then return some (← name .pathStep) else return none

private theorem pathLink_productive {x : Name} (h : Reads pathLink s (some x) t) :
    t.after.length < s.after.length := by
  simp only [pathLink, reads_bind, reads_accept, reads_ite, reads_pure, reduceCtorEq, false_and,
    and_false, or_false, Option.some.injEq] at h
  obtain ⟨_, _, ⟨hs, rfl, rfl⟩ | ⟨_, rfl, rfl⟩, hn⟩ := h
  · obtain ⟨-, x, _, hx, -, rfl⟩ := hn
    exact Nat.lt_of_le_of_lt (Advances.reads hx).length_le
      (State.advance_shorter (State.current?_of_sees hs))
  · cases hn.1

private theorem no_arrow_of_collect {first ns : List Name}
    (h : Reads (collect pathLink first) s ns t) :
    t.sees (.symbol .arrow) = false := by
  obtain ⟨rest, -, hrest⟩ := (reads_collect pathLink_productive).1 h
  obtain ⟨u, hlast⟩ := hrest.last
  simp only [pathLink, reads_bind, reads_accept, reads_ite, reads_pure, reduceCtorEq, false_and,
    and_false, exists_false, false_or] at hlast
  obtain ⟨_, _, ⟨_, rfl, rfl⟩ | ⟨harrow, rfl, rfl⟩, h⟩ := hlast
  · exact absurd rfl h.1
  · rw [h.2.2]
    simpa using harrow

private theorem links_path (hqs : ∀ u : State, u.Shows qs → u.sees (.symbol .arrow) = false)
    (hbounds : Bounds (render qs).toList) :
    Links code pathLink [space, symbol .arrow, space] n qs where
  productive := pathLink_productive
  isIdentifier h := by
    simp only [hears_bind, hears_accept, hears_ite, hears_pure, reduceCtorEq, false_and, and_false,
      or_false, Option.some.injEq] at h
    obtain ⟨_, _, -, -, y, _, hy, -, rfl, -⟩ := h
    exact hy.isIdentifier
  more {x ps} hx hbounds := by
    refine .space
      (.accept nofun (.symbol_detached (by decide) detached_space) (.ite_pos rfl (.space ?_)))
    exact (Echo.name hx hbounds).bind fun x' hx' => .pure (congrArg some hx')
  done := .not_accept hqs (.ite_neg Bool.false_ne_true (.pure rfl))
  bounds _ := detached_space.bounds
  ends := hbounds

private theorem echo_path (code : Bool) (indent n : Nat) (hpath : s.atPathStart = true)
    (h : Hears path s i t) (hlikes : Likes t qs) (hbounds : Bounds (render qs).toList) :
    Echo code path i n (i.layout indent ++ qs) n qs ∧
      Likes s (i.layout indent ++ qs) ∧ ∀ u : State, u.Shows (i.layout indent ++ qs) →
      u.atPathStart = true := by
  unfold path at h ⊢
  simp only [upToHere, hears_bind, hears_pure, hears_expect, hears_ask, and_assoc, exists_and_left,
    exists_eq_left] at h
  obtain ⟨-, hsees, -, -, x, s₁, hx, chain, s₂, hchain, -, -, rfl, rfl⟩ := h
  have harrow := State.sees_arrow hpath
  have hs₁ := (hears_name.1 hx).2.2.2
  have hmore : ∃ y ys, chain = x :: y :: ys := by
    obtain ⟨rest, rfl, -⟩ := (reads_collect pathLink_productive).1 hchain.reads
    have hlength := length_of_reads_links (by rwa [hs₁]) hchain.reads
    cases rest with
    | nil => exact absurd hlength (Nat.lt_irrefl _)
    | cons y ys => exact ⟨y, ys, rfl⟩
  have hlinks : Links code pathLink [space, symbol .arrow, space] n qs :=
    links_path (fun u hu => by rw [(hlikes u hu).sees rfl, no_arrow_of_collect hchain.reads])
      hbounds
  obtain ⟨rest, rfl, hecho⟩ := Echo.collect hlinks hchain
  obtain ⟨y, ys, hys⟩ := hmore
  obtain rfl : rest = y :: ys := List.cons.inj hys |>.2
  have hlayout (span : Span) : (RunItem.path span ([x] ++ y :: ys)).layout indent ++ qs =
      keyword .path :: symbol .colon :: space :: Piece.name x ::
        behindName [space, symbol .arrow, space] (y :: ys) qs := by
    rw [RunItem.layout, List.append_assoc, List.singleton_append, names_append]
    rfl
  rw [hlayout]
  refine ⟨(Echo.expect (l := .keyword .path) (by simp) (.keyword (bounds_symbol .colon))).bind
      fun start' _ =>
    (Echo.symbol_space (by decide)).bind fun _ _ =>
      (Echo.name hx.isIdentifier (bounds_behindName hlinks _)).bind
    fun x' hx' => (hecho [x'] (same_cons hx' rfl)).bind fun chain' hchain' =>
      Echo.ask.bind fun span' _ => .pure ?_,
    likes_lexeme (by rw [State.current?_of_sees hsees]; rfl) (by simp) (by simp), fun u hu => ?_⟩
  · simp only [Same, respan, RunItem.respan] at hchain' ⊢
    rw [hchain']
  · have hpeek := peek?_of_shows hu (by simp) (by simp)
    have hsees' := hu.sees (by simp) (.keyword .path)
    rw [hx.isIdentifier.piece, behindName_cons] at hu
    have hbehind :=
      ((((hu.advance (by simp)).advance (by simp)).space.advance (by simp)).space.sees (by simp)
      (.symbol .arrow))
    rw [State.sees, State.peek?_three] at hbehind
    rw [State.atPathStart, hsees', hpeek, hbehind, beq_self_eq_true, beq_self_eq_true,
      beq_self_eq_true]
    rfl

end Paths

section Items

variable {i : RunItem}

private theorem not_step_of_declaration {d : Decl} (h : Reads (declaration? inner) s (some d) t) :
    s.atStepStart = false := by
  rw [Bool.eq_false_iff]
  intro hstep
  obtain ⟨l, hs, hname, hpeek⟩ := State.atStepStart_iff.1 hstep
  unfold declaration? at h
  rw [reads_get_bind, hs] at h
  split at h
  case h_2 =>
    simp only [profile, reads_bind, reads_expect, reads_name, and_assoc, exists_and_left,
      exists_eq_left] at h
    obtain ⟨-, _, _, ⟨_, hcurrent, -⟩, -⟩ := h
    have hbehind : s.advance.current? = s.peek? 1 := s.peek?_advance 0
    rw [hbehind, hpeek] at hcurrent
    cases hcurrent
  case h_6 => cases (reads_pure.1 h).1
  all_goals
    rename_i hl
    cases hl
    cases hname

private theorem State.atStepStart_of_atPathStart (h : s.atPathStart = true) :
    s.atStepStart = true := by
  simp only [State.atPathStart, Bool.and_eq_true, beq_iff_eq] at h
  exact State.atStepStart_iff.2 ⟨_, State.current?_of_sees h.1.1, rfl, h.1.2⟩

variable [∀ e, Advances (inner e)]

private theorem Echoes.runItem (hi : Echoes inner) (h : Hears (runItem inner) s i t)
    (hgood : Good code (.runItem i)) (hbeyond : Beyond i.open_ t qs) :
    Echo code (Grammar.runItem inner) i n (i.layout indent ++ qs) n qs ∧
    Likes s (i.layout indent ++ qs) := by
  unfold Grammar.runItem at h ⊢
  rw [hears_get_bind, hears_ite, hears_ite] at h
  rcases h with ⟨hpath, h⟩ | ⟨hpath, ⟨hstep, h⟩ | ⟨hstep, h⟩⟩
  · obtain ⟨hecho, hlikes, hshown⟩ := echo_path code indent n hpath h hbeyond.likes
      hbeyond.detached.bounds
    exact ⟨.get_bind fun u hu => .ite_pos (hshown u hu) hecho, hlikes⟩
  · obtain ⟨hecho, hlikes, hshown⟩ := hi.step indent n hstep h hgood hbeyond.likes
      hbeyond.detached.bounds
    refine ⟨.get_bind fun u hu => ?_, hlikes⟩
    obtain ⟨hstep', hpath'⟩ := hshown u hu
    exact .ite_neg (by rwa [hpath']) (.ite_pos hstep' hecho)
  · obtain ⟨hread, hs, hlog⟩ := h
    obtain ⟨d, s₁, hd, hrest⟩ := reads_bind.1 hread
    cases d with
    | none => exact (reads_unexpected.1 hrest).elim
    | some d =>
      obtain ⟨rfl, rfl⟩ := reads_pure.1 hrest
      obtain ⟨hecho, hlikes⟩ := hi.declaration indent n ⟨hd, hs, hlog⟩
        (hgood.children _ List.mem_cons_self) hbeyond
      rw [RunItem.layout]
      refine ⟨.get_bind fun u hu => ?_, hlikes⟩
      have hstep' : u.atStepStart = false := by
        obtain ⟨d', v, hd', hsame, -⟩ := hecho.answers hu
        cases d' with
        | none => cases hsame
        | some d' => exact not_step_of_declaration hd'
      refine .ite_neg (fun h => ?_)
        (.ite_neg (by rw [hstep']; decide) (hecho.bind fun d' hd' => ?_))
      · rw [State.atStepStart_of_atPathStart h] at hstep'
        cases hstep'
      · cases d' with
        | none => cases hd'
        | some d' => exact .pure (congrArg RunItem.decl (Option.some.inj hd'))

private theorem Echoes.begins_runItem (hi : Echoes inner)
    (h : Reads (Grammar.runItem inner) s i t) :
    ∃ l, s.current? = some l ∧ ∀ x, l ≠ .symbol x := by
  unfold Grammar.runItem at h
  rw [reads_get_bind, reads_ite, reads_ite] at h
  have hstep (h : s.atStepStart = true) : ∃ l, s.current? = some l ∧ ∀ x, l ≠ .symbol x := by
    obtain ⟨l, hs, hname, -⟩ := State.atStepStart_iff.1 h
    refine ⟨l, hs, fun x hx => ?_⟩
    rw [hx] at hname
    cases hname
  rcases h with ⟨hpath, -⟩ | ⟨-, ⟨hat, -⟩ | ⟨-, h⟩⟩
  · exact hstep (State.atStepStart_of_atPathStart hpath)
  · exact hstep hat
  · obtain ⟨d, s₁, hd, h⟩ := reads_bind.1 h
    cases d with
    | none => exact (reads_unexpected.1 h).elim
    | some d =>
      obtain ⟨⟨k, hs⟩, -⟩ := hi.ends_declaration hd
      exact ⟨_, hs, nofun⟩

private theorem Echoes.closes_runItem (hi : Echoes inner) (h : Reads (Grammar.runItem inner) s i t)
    (hopen : i.open_ = true) :
    t.atOperator = false := by
  unfold Grammar.runItem at h
  rw [reads_get_bind, reads_ite, reads_ite] at h
  cases i with
  | step span x operation args => cases hopen
  | path span chain => cases hopen
  | decl d =>
    rcases h with ⟨-, h⟩ | ⟨-, ⟨hat, h⟩ | ⟨-, h⟩⟩
    · rw [(Wrote.path h).2] at hopen
      cases hopen
    · rw [(Wrote.step hi.writes hat h).2] at hopen
      cases hopen
    · obtain ⟨d', s₁, hd, h⟩ := reads_bind.1 h
      cases d' with
      | none => exact (reads_unexpected.1 h).elim
      | some d' =>
        obtain ⟨h, rfl⟩ := reads_pure.1 h
        cases h
        exact (hi.ends_declaration hd).2 hopen

omit [∀ e, Advances (inner e)] in
private theorem not_bars_of_runItem (hu : u.Shows (i.layout indent ++ qs)) :
    u.sees (.symbol .or) = false := by
  cases i with
  | step span x operation args =>
    rw [RunItem.layout.eq_def] at hu
    rw [hu.sees (x.lexeme_ne_symbol _), beq_eq_false_iff_ne]
    exact x.lexeme_ne_symbol _
  | path span chain =>
    rw [RunItem.layout] at hu
    rw [hu.sees nofun]
    rfl
  | decl d =>
    obtain ⟨k, ps, hps⟩ := d.layout_head indent qs
    rw [RunItem.layout, hps] at hu
    rw [hu.sees nofun]
    rfl

omit [∀ e, Advances (inner e)] in
private theorem Run.layout_block (indent : Nat) (span : Span) (items : List RunItem) :
    (Run.block span items).layout indent = keyword .run :: space ::
    bracedLines indent RunItem.layout items := by
  cases items with
  | nil =>
    rw [Run.layout]
    rfl
  | cons i items =>
    rw [Run.layout, Run.layoutItems_eq]
    simp only [bracedLines, List.isEmpty_cons, Bool.false_eq_true, ↓reduceIte, List.flatMap_cons,
      List.append_assoc, List.cons_append, List.nil_append]

private theorem Echoes.runBlock (hi : Echoes inner) (indent n : Nat) (qs : List Piece) {r : Run}
    {start : Span} (h : Hears (runBlock inner start) s r t) (hgood : Good code (.run r)) :
    ∃ ps, r.layout indent ++ qs = keyword .run :: space :: symbol .leftBrace :: ps ∧
      ∀ start', Echo code (Grammar.runBlock inner start') r n (symbol .leftBrace :: ps) n qs := by
  unfold Grammar.runBlock at h ⊢
  simp only [hears_bind, hears_pure, hears_expect, hears_close, and_assoc, exists_and_left,
    exists_eq_left] at h
  obtain ⟨-, hbrace, items, s₁, hitems, -, hclose, -, rfl, rfl⟩ := h
  obtain ⟨ps, hends, hlayout⟩ := bracedLines_ends code indent n qs hclose RunItem.layout items
  have hall : Lines code atBlockEnd (Grammar.runItem inner) (RunItem.layout (indent + 2))
    RunItem.open_ (fun _ => false)
      items s₁ (n + 1) ps :=
    { each := fun hmem h hbeyond =>
      hi.runItem h (hgood.children _ (List.mem_map_of_mem hmem)) hbeyond
      closes := hi.closes_runItem
      plain := fun h => by
        obtain ⟨l, hs, hl⟩ := hi.begins_runItem h
        rw [State.sees, hs, beq_eq_false_iff_ne]
        exact fun heq => hl _ (Option.some.inj heq)
      bars := fun _ => not_bars_of_runItem
      starts := fun h => by
        obtain ⟨l, hs, hl⟩ := hi.begins_runItem h
        exact atBlockEnd_of_current? hs (hl _)
      beyond := hends.beyond
      ends := hends.ends _ }
  have hchain : items.IsChain fun a _ => a.open_ = true → false = false := by
    refine List.Pairwise.isChain (List.pairwise_of_forall fun _ _ _ => rfl)
  have hrun : (Run.block (start.merge s₁.currentSpan) items).layout indent ++ qs =
      keyword .run :: space :: symbol .leftBrace ::
        behindLine (indent + 2) (RunItem.layout (indent + 2)) items ps := by
    rw [Run.layout_block, List.cons_append, List.cons_append, hlayout]
  refine ⟨_, hrun, fun start' =>
      (Echo.expect (l := .symbol .leftBrace) (by simp) .leftBrace).bind fun opener _ =>
    (Echo.statements atBlockEnd_of_atEnd hall hitems hchain).bind fun items' hitems' =>
    (hends.close opener).bind fun closer _ => .pure ?_⟩
  simp only [Same, respan, Run.respan, RunItem.respanAll_eq_map] at hitems' ⊢
  rw [hitems']

theorem Echoes.run [Consumes (inner .expression)] (hi : Echoes inner) (indent n : Nat) {r : Run}
    (h : Hears (run inner) s r t)
    (hgood : Good code (.run r)) (hlikes : Likes t qs) (hbounds : Bounds (render qs).toList) :
    Echo code (Grammar.run inner) r n (r.layout indent ++ qs) n qs ∧
    Likes s (r.layout indent ++ qs) := by
  unfold Grammar.run at h ⊢
  simp only [hears_get, hears_bind, hears_ite, hears_expect, and_assoc, exists_and_left,
    exists_eq_left] at h
  obtain ⟨-, hrun, -, ⟨hbrace, h⟩ | ⟨hbrace, h⟩⟩ := h
  all_goals
    have hlike (ps : List Piece) : Likes s (keyword .run :: ps) :=
      likes_lexeme (l := .keyword .run) (by rw [State.current?_of_sees hrun]; rfl) nofun nofun
  · obtain ⟨ps, hlayout, hecho⟩ := hi.runBlock indent n qs h hgood
    rw [hlayout]
    exact ⟨Echo.keyword_space.bind fun start' _ => .get_bind fun u hu => .ite_pos
      (by rw [hu.sees nofun, beq_self_eq_true]) (hecho start'), hlike _⟩
  · obtain ⟨ps, hlayout, ⟨x, ps', rfl⟩, hecho⟩ := hi.inlineRun indent n h hgood hlikes
      hbounds
    rw [hlayout]
    refine ⟨Echo.keyword_space.bind fun start' _ => .get_bind fun u hu =>
      .ite_neg ?_ (hecho start'), hlike _⟩
    rw [hu.sees (x.lexeme_ne_symbol _), beq_iff_eq]
    exact x.lexeme_ne_symbol _

end Items

end Grammar

end ApiScript
