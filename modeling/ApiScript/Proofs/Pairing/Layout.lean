import ApiScript.Proofs.Pairing.Expression

set_option autoImplicit false
set_option relaxedAutoImplicit false

/-!
The layout of a text. Blanks and comments between the tokens tell nothing, except where the grammar
asks if one token is written against another.
-/

namespace ApiScript

open Grammar Placed

def Program.bare (p : Program) : Program := p.respan fun _ => .nowhere

def Diagnostic.bare (d : Diagnostic) : Diagnostic := d.respan fun _ => .nowhere

namespace Grammar

/-- Places are told apart in neither run; what is read of the first text ends with the text. -/
abbrev Regime.bare (source : String) : Regime where
  left _ := .nowhere
  right _ := .nowhere
  merge _ _ := rfl
  within _ _ _ := rfl
  fence := .atEnd source.utf8ByteSize
  before := []
  before' := []
  log := []
  log' := []

private theorem twins_bare {left right : String} (hleft : (State.ofString left 0).log = [])
    (hright : (State.ofString right 0).log = [])
    (hlexemes : (State.ofString left 0).after.map (·.lexeme) = (State.ofString right 0).after.map
      (·.lexeme)) (hseams : Seams (State.ofString left 0).after (State.ofString right 0).after) :
    Twins (.bare left) false (State.ofString left 0) (State.ofString right 0) where
  fence := by
    refine ⟨(State.ofString left 0).after, (List.append_nil _).symm, fun x hx => ?_, fun _ =>
      ?_, fun h => absurd rfl h, fun h => absurd rfl h, fun h => absurd rfl h⟩
    · have hsize := State.ofString_size_le hx
      rwa [Nat.zero_add, ← Text.utf8ByteSize_eq left] at hsize
    · simp only [State.ofString, Nat.zero_add, Nat.le_refl]
  broken := by rw [broken_of_log_nil hleft, broken_of_log_nil hright]
  after := by
    have htokens := congrArg (List.map fun l => Token.mk l .nowhere) hlexemes
    rw [List.map_map, List.map_map] at htokens
    exact htokens
  seams := hseams
  stop := rfl
  before := ⟨[], [], rfl, rfl, rfl, nofun⟩
  log := ⟨[], [], hleft, hright, rfl, List.forall_mem_nil _⟩

end Grammar

/-- Two texts without lexical errors, of the same tokens but for the places, which are written
against each other in one text where they are in the other and the grammar asks for it: they are
read as the same program, and the same is told of them. -/
theorem parse_bare_eq (left right : String) (limit : Nat)
    (hleft : (Lexer.ofString left 0).tokenizeFiltered.2 = [])
    (hright : (Lexer.ofString right 0).tokenizeFiltered.2 = [])
    (hlexemes : (Lexer.ofString left 0).tokenizeFiltered.1.map (·.lexeme) =
      (Lexer.ofString right 0).tokenizeFiltered.1.map (·.lexeme))
    (hseams : Seams (Lexer.ofString left 0).tokenizeFiltered.1
      (Lexer.ofString right 0).tokenizeFiltered.1) :
    (parse left limit).1.bare = (parse right limit).1.bare ∧
      (parse left limit).2.map Diagnostic.bare = (parse right limit).2.map Diagnostic.bare := by
  have hlog : (State.ofString left 0).log = [] := List.map_eq_nil_iff.2 hleft
  have hlog' : (State.ofString right 0).log = [] := List.map_eq_nil_iff.2 hright
  rw [← State.ofString_after hlog, ← State.ofString_after hlog'] at hlexemes hseams
  have htwins := twins_bare hlog hlog' hlexemes hseams
  obtain ⟨finish, hread, hfinish⟩ := reads_parse left limit
  obtain ⟨finish', hread', hfinish'⟩ := reads_parse right limit
  -- Both runs read statements, since no lexical error is fatal.
  have hlisted := (reads_script.1 hread).resolve_left fun h => by simp [broken_of_log_nil hlog] at h
  have hlisted' :=
    (reads_script.1 hread').resolve_left fun h => by simp [broken_of_log_nil hlog'] at h
  have hopen : (Regime.bare left).fence.Open := rfl
  have hagree := agree_items (alike_enter limit limit) hopen htwins
  obtain ⟨hitems, hend⟩ := hagree.reads ((reads_statements fun _ h => h).2 hlisted.2.1)
    ((reads_statements fun _ h => h).2 hlisted'.2.1)
  obtain ⟨ds, ds', hds, hds', hsame, _⟩ := hend.log
  rw [List.nil_append] at hds hds'
  constructor
  · simp only [Program.bare, Program.respan, Item.respanAll_eq_map]
    exact congrArg (Program.mk · Span.nowhere) hitems
  · rw [hfinish, hfinish', hds, hds']
    exact hsame

/-- A sign, an emission and a bracket that nothing opens, on one line and on three. -/
theorem parse_bare_eq_of_lines :
    (parse "let x = -1 |> emit.json (a) ] f(- 2)" 8).2.length = 1 ∧
      (parse "let x = -1 |> emit.json (a) ] f(- 2)" 8).1.bare =
        (parse "let x=-1 // one\n|>emit.json\t(a)/* two */]f (\n-\n2)" 8).1.bare ∧
      (parse "let x = -1 |> emit.json (a) ] f(- 2)" 8).2.map Diagnostic.bare =
        (parse "let x=-1 // one\n|>emit.json\t(a)/* two */]f (\n-\n2)" 8).2.map Diagnostic.bare :=
  ⟨by decide +kernel, parse_bare_eq _ _ 8 (by decide +kernel) (by decide +kernel)
    (by decide +kernel)
    (by decide +kernel)⟩

end ApiScript
