import ApiScript.Proofs.Spelling.Expression
import ApiScript.Session

set_option autoImplicit false
set_option relaxedAutoImplicit false

/-!
Scripts stand for the tokens of their text. Where nothing is reported, the statements are all there
is.
-/

namespace ApiScript

open Grammar

namespace Grammar

variable {s t : State}

theorem fails_script {inner : Inner} {d : Diagnostic} : ¬Fails (script inner) s d t := by
  intro h
  unfold script at h
  rcases fails_bind.1 h with h | ⟨u, _, hu, h⟩
  · cases h
  · split at h
    · cases h
    · rcases fails_bind.1 h with h | ⟨items, v, _, h⟩
      · exact fails_statements h
      · cases h

theorem reads_script {inner : Inner} [∀ e, Advances (inner e)] [Consumes (inner .expression)]
    {p : Program} :
    Reads (script inner) s p t ↔ s.broken = true ∧ p = ⟨[], s.area⟩ ∧ t = s ∨
      s.broken = false ∧ Listed .script State.atEnd (item inner) s p.items t ∧
      p = ⟨p.items, s.area⟩ := by
  unfold script
  simp only [reads_bind, reads_get, reads_ite, reads_pure, and_assoc, exists_and_left,
    exists_eq_left, Bool.not_eq_true, reads_statements (fun _ h => h)]
  refine or_congr_right (and_congr_right fun _ => ⟨?_, ?_⟩)
  · rintro ⟨items, _, h, rfl, rfl⟩
    exact ⟨h, rfl⟩
  · rintro ⟨h, hp⟩
    exact ⟨p.items, t, h, hp, rfl⟩

theorem Wrote.script {inner : Inner} [∀ e, Advances (inner e)] [Consumes (inner .expression)]
    (hi : Writes inner) {p : Program} (h : Reads (script inner) s p t) :
    s.broken = true ∧ p.items = [] ∧ t = s ∨ s.broken = false ∧ Wrote s p.marks t ∧
    t.after = [] := by
  rcases reads_script.1 h with ⟨hs, rfl, rfl⟩ | ⟨hs, hitems, _⟩
  · exact .inl ⟨hs, rfl, rfl⟩
  · refine .inr ⟨hs, ?_, by simpa [State.atEnd] using hitems.atEnd⟩
    rw [Program.marks, Item.marksAll_eq_flatMap]
    exact hitems.wrote (fun h => (Wrote.item hi h).1) (fun h => (Wrote.item hi h).2) (by simp)

end Grammar

theorem reads_parse (source : String) (limit : Nat) : ∃ finish,
    Reads (script (enter limit limit)) (State.ofString source 0) (parse source limit).1 finish ∧
      (parse source limit).2 = finish.log := by
  cases h : (script (enter limit limit)).run (State.ofString source 0) with
  | error d t => exact absurd h fails_script
  | ok p t =>
    have hprogram : (Session.ofString source limit).program = (p, ⟨limit, t⟩) := by
      simp only [Session.program, Session.inner, Session.ofString, h]
    refine ⟨t, ?_, ?_⟩
    · rw [parse, hprogram]
      exact h
    · simp only [parse, hprogram, Session.diagnostics]

/-- An expression that a text is read as, with what is reported there. -/
theorem parseExpr_eq_some {source : String} {e : Expr} {ds : List Diagnostic} :
    parseExpr source = (some e, ds) ↔ ∃ finish,
      Reads (wholeExpression (enter Session.defaultLimit Session.defaultLimit))
        (State.ofString source 0) e finish ∧
        finish.log = ds := by
  cases h : (wholeExpression (enter Session.defaultLimit Session.defaultLimit)).run
      (State.ofString source 0) with
  | ok e' finish =>
    have hrun : (Session.ofString source Session.defaultLimit).expression =
        (.ok e', ⟨Session.defaultLimit, finish⟩) := by
      simp only [Session.expression, Session.inner, Session.ofString, h]
    simp only [parseExpr, hrun, Session.diagnostics, Prod.mk.injEq, Option.some.injEq]
    constructor
    · rintro ⟨rfl, rfl⟩
      exact ⟨finish, h, rfl⟩
    · rintro ⟨finish', hread, rfl⟩
      obtain ⟨rfl, rfl⟩ := EStateM.Result.ok.inj (h.symm.trans hread)
      exact ⟨rfl, rfl⟩
  | error d finish =>
    have hrun : (Session.ofString source Session.defaultLimit).expression =
        (.error d, ⟨Session.defaultLimit, finish⟩) := by
      simp only [Session.expression, Session.inner, Session.ofString, h]
    simp only [parseExpr, hrun, Prod.mk.injEq, reduceCtorEq, false_and, false_iff]
    rintro ⟨finish', hread, _⟩
    cases h.symm.trans hread

theorem broken_of_log_nil {source : String} {offset : Nat}
    (h : (State.ofString source offset).log = []) :
    (State.ofString source offset).broken = false := by
  simp only [State.ofString, List.map_eq_nil_iff] at h
  simp only [State.ofString, h, List.any_nil]

theorem listed_of_parse {source : String} {limit : Nat}
    (h : (parse source limit).2 = []) :
    ∃ finish, (State.ofString source 0).log = [] ∧ finish.log = [] ∧
      Listed .script State.atEnd (item (enter limit limit)) (State.ofString source 0)
        (parse source limit).1.items finish ∧
      (parse source limit).1 = ⟨(parse source limit).1.items, (State.ofString source 0).area⟩ := by
  obtain ⟨finish, hread, hlog⟩ := reads_parse source limit
  rw [h] at hlog
  have hstart : (State.ofString source 0).log = [] := by
    have hprefix := (Advances.reads hread).log
    rwa [← hlog, List.prefix_nil] at hprefix
  have hbroken := broken_of_log_nil hstart
  have hlisted := (reads_script.1 hread).resolve_left fun hlost => by simp [hbroken] at hlost
  exact ⟨finish, hstart, hlog.symm, hlisted.2⟩

/-- Where nothing is wrong with a script, its program stands for all tokens of the text that are not
comments, each once and in order. -/
theorem parse_keeps_every_token (source : String) (limit : Nat) (h : (parse source limit).2 = []) :
    Mark.SpelledAll false (parse source limit).1.marks
      (Lexer.ofString source 0).tokenizeFiltered.1 [] := by
  obtain ⟨finish, hread, hlog⟩ := reads_parse source limit
  rw [h] at hlog
  have hstart : (State.ofString source 0).log = [] := by
    have hprefix := (Advances.reads hread).log
    rwa [← hlog, List.prefix_nil] at hprefix
  have hi : Writes (enter limit limit) := writes_enter limit limit
  rcases Wrote.script hi hread with ⟨hbroken, _⟩ | ⟨_, ⟨ts, hm, hms⟩, hend⟩
  · rw [broken_of_log_nil hstart] at hbroken
    cases hbroken
  · have hspelled := hms (State.sound_ofString source 0) false (.inr (hlog.symm.trans hstart.symm))
    rw [hend] at hspelled
    rw [← State.ofString_after hstart, hm.after, hend, List.append_nil]
    exact hspelled

/-- Nothing is lost of a script with a lambda without parameters, code in a string and a comma in
front of a bracket. -/
theorem parse_keeps_every_token_of_lambda :
    (parse "let f = | | [\"a\x24\x7b-1 + b\x7d\", 2,] // c" 8).2 = [] ∧
      Mark.SpelledAll false (parse "let f = | | [\"a\x24\x7b-1 + b\x7d\", 2,] // c" 8).1.marks
        (Lexer.ofString "let f = | | [\"a\x24\x7b-1 + b\x7d\", 2,] // c" 0).tokenizeFiltered.1
          [] := by
  have h : (parse "let f = | | [\"a\x24\x7b-1 + b\x7d\", 2,] // c" 8).2 = [] := by decide +kernel
  exact ⟨h, parse_keeps_every_token _ 8 h⟩

end ApiScript
