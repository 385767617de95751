import ApiScript.Proofs.Pairing.Isolation
import ApiScript.Proofs.Sequel.Expression

set_option autoImplicit false
set_option relaxedAutoImplicit false

/-!
Two scripts one behind the other. Where nothing is wrong with the first one and a declaration begins
the second one, both are read as they are alone.
-/

namespace ApiScript

open Grammar Placed

namespace Grammar

variable {s t u : State}

/-- A text stands behind another, whose places are `k` less, if it begins with a declaration. -/
private def Sequel.ofString (source : String) (k : Nat)
    (h : ∀ t ∈ (State.ofString source 0).after.head?, t.lexeme.opensDeclaration = true) :
    Sequel where
  tokens := (State.ofString source 0).after.map (Token.respan (.shift k))
  log := (State.ofString source 0).log.map (Diagnostic.respan (.shift k))
  keyword t ht := by
    rw [List.head?_map, Option.mem_def, Option.map_eq_some_iff] at ht
    obtain ⟨x, hx, rfl⟩ := ht
    exact h x hx

private theorem exists_reads_statements {α : Type} (surroundings : Surroundings)
    (atEnd : State → Bool) (statement : Parser α) (s : State) :
    ∃ as u, Reads (statements surroundings atEnd statement) s as u := by
  cases h : statements surroundings atEnd statement s with
  | ok as u => exact ⟨as, u, h⟩
  | error d u => exact absurd h fails_statements

private theorem Listed.line {front back : String} {limit : Nat} {items : List Item} {finish : State}
    (hitems : Listed .script State.atEnd (item (enter limit limit)) (State.ofString front 0)
      items finish) (hstart : (State.ofString front 0).log = []) (hclean : finish.log = [])
    (hdecl : ∀ t ∈ (State.ofString back 0).after.head?, t.lexeme.opensDeclaration = true) :
    ∃ v, Twins { Regime.behind v (front.utf8ByteSize + 1) with log := [] } false v
      (State.ofString back 0) ∧
      ∀ bs w, Listed .script State.atEnd (item (enter limit limit)) v bs w →
        Listed .script State.atEnd (item (enter limit limit))
          (State.ofString (front ++ "\n" ++ back) 0) (items ++ bs) w := by
  obtain ⟨hafter, hlog, hbroken, hstop⟩ := State.ofString_line back (broken_of_log_nil hstart)
  have hextends :
      (Sequel.ofString back (front.utf8ByteSize + 1) hdecl).Extends (State.ofString front 0)
        (State.ofString (front ++ "\n" ++ back) 0) := by
    refine ⟨hafter, rfl, rfl, ?_⟩
    rw [hlog, hstart, List.nil_append, List.append_nil]
    rfl
  have hway :=
    hitems.carry (carries_item (carried_enter limit limit limit limit))
      (fun h => h.not_atEnd) hextends
  have hquiet : finish.log = (State.ofString front 0).log := hclean.trans hstart.symm
  obtain ⟨v, ⟨⟨_, hreach⟩, hrest⟩, hv⟩ := hway.carry hquiet (hway.le_reach hquiet (Nat.zero_le _))
  have hend : finish.after = [] := by simpa [State.atEnd] using hitems.atEnd
  refine ⟨v, twins_behind ?_ ?_ ?_ ?_, hrest⟩
  · rw [hv.after, hend, List.nil_append]
    rfl
  · rw [hreach.area, hstop]
  · rw [hreach.broken, hbroken]
  · rw [hv.log, hclean, List.append_nil]
    rfl

end Grammar

/-- Where nothing is wrong with a script, and another text without a fatal lexical error begins with
a declaration, the statements of the second one follow those of the first one, and what is wrong is
wrong with the second one, all in the places behind the first one. -/
theorem parse_line (front back : String) (limit : Nat) (first : Token)
    (haccepted : (parse front limit).2 = []) (hsound : (State.ofString back 0).broken = false)
    (hfirst : (State.ofString back 0).after.head? = some first)
    (hdecl : first.lexeme.opensDeclaration = true) :
    (parse (front ++ "\n" ++ back) limit).1.items = (parse front limit).1.items ++
        (parse back limit).1.items.map (Item.respan (.shift (front.utf8ByteSize + 1))) ∧
      (parse (front ++ "\n" ++ back) limit).2 =
        (parse back limit).2.map (Diagnostic.respan (.shift (front.utf8ByteSize + 1))) := by
  obtain ⟨_, hstart, hclean, hfront, _⟩ := listed_of_parse haccepted
  obtain ⟨_, hread, hlog⟩ := reads_parse back limit
  obtain ⟨_, hread', hlog'⟩ := reads_parse (front ++ "\n" ++ back) limit
  have hbroken := (State.ofString_line back (broken_of_log_nil hstart)).2.2.1
  have hback := (reads_script.1 hread).resolve_left fun h => by simp [hsound] at h
  have hwhole := (reads_script.1 hread').resolve_left fun h => by simp [hbroken, hsound] at h
  obtain ⟨v, htwins, hrest⟩ := hfront.line hstart hclean fun t ht => by
    rw [hfirst, Option.mem_some_iff] at ht
    rwa [← ht]
  -- From where the second text begins, its statements are read in its place as they are alone.
  obtain ⟨items, u, hitems⟩ :=
    exists_reads_statements .script State.atEnd (item (enter limit limit)) v
  have hlisted := (reads_statements fun _ h => h).1 hitems
  obtain ⟨hsame, hsamelog⟩ := hlisted.behind htwins hback.2.1
  have hwhole' := (reads_statements fun _ h => h).2 (hrest items u hlisted)
  obtain ⟨hprogram, rfl⟩ :=
    EStateM.Result.ok.inj (((reads_statements fun _ h => h).2 hwhole.2.1).symm.trans hwhole')
  exact ⟨by rw [hprogram, hsame], by rw [hlog', hsamelog, hlog, List.nil_append]⟩

/-- A path that ends in front of the next declaration, which goes wrong behind a rejected
character. -/
theorem parse_line_of_use :
    (parse "use std::x // end" 8).2 = [] ∧ (parse "profile # p \x7b \x7d fn" 8).2.length = 2 ∧
      (parse ("use std::x // end" ++ "\n" ++ "profile # p \x7b \x7d fn") 8).1.items =
        (parse "use std::x // end" 8).1.items ++
        (parse "profile # p \x7b \x7d fn" 8).1.items.map (Item.respan (.shift 18)) ∧
      (parse ("use std::x // end" ++ "\n" ++ "profile # p \x7b \x7d fn") 8).2 =
        (parse "profile # p \x7b \x7d fn" 8).2.map (Diagnostic.respan (.shift 18)) := by
  have haccepted : (parse "use std::x // end" 8).2 = [] := by decide +kernel
  exact ⟨haccepted, by
    decide +kernel, parse_line _ "profile # p \x7b \x7d fn" 8 ⟨.keyword .profile, ⟨0, 7⟩⟩ haccepted
    (by decide +kernel) (by decide +kernel) rfl⟩

end ApiScript
