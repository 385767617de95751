import ApiScript.Proofs.Limit.Raised
import ApiScript.Proofs.Sequel.Expression

set_option autoImplicit false
set_option relaxedAutoImplicit false

/-!
The limit of nesting is exact. Where nothing is wrong with a script under some limit, the number of
levels of its program is the least limit under which nothing is, and below it something is told of
the limit.
-/

namespace ApiScript

open Grammar

/-- The program of a script without diagnostics has no more levels than the limit, and it is what
the script is read as under any other limit that is as high as its levels. -/
private theorem parse_of_nesting_le {source : String} {limit : Nat} (limit' : Nat)
    (h : (parse source limit).2 = []) :
    (parse source limit).1.nesting ≤ limit ∧
      ((parse source limit).1.nesting ≤ limit' → parse source limit' = parse source limit) := by
  obtain ⟨finish, hstart, hclean, hlisted, hprogram⟩ := listed_of_parse h
  obtain ⟨finish', hread', hlog'⟩ := reads_parse source limit'
  have hquiet : finish.log = (State.ofString source 0).log := hclean.trans hstart.symm
  have hway := hlisted.carry (carries_item (carried_enter limit limit' limit limit'))
    (fun h => h.not_atEnd) (.refl (State.ofString source 0))
  rw [← Item.nestingAll_eq] at hway
  refine ⟨hway.le_reach hquiet (Nat.zero_le _), fun hroom => ?_⟩
  obtain ⟨v, ⟨_, hv⟩, hfinish⟩ := hway.carry hquiet hroom
  obtain ⟨hafter, _, _, hvlog⟩ := Sequel.Extends.nothing_iff.1 hfinish
  have hend : v.atEnd = true := by
    rw [State.atEnd, hafter]
    exact hlisted.atEnd
  have hitems := hv [] v (.done hend)
  rw [List.append_nil] at hitems
  have hscript :
      Reads (script (enter limit' limit')) (State.ofString source 0) (parse source limit).1 v :=
    reads_script.2 (.inr ⟨broken_of_log_nil hstart, hitems, hprogram⟩)
  obtain ⟨hsame, rfl⟩ := EStateM.Result.ok.inj (hread'.symm.trans hscript)
  exact Prod.ext hsame (hlog'.trans (hvlog.trans (hclean.trans h.symm)))

/-- Where nothing is wrong with a script under some limit, nothing is wrong with it under another if
and only if the levels of its program are within that one; it is then read as the same program, and
otherwise it is told that the limit was exceeded. -/
theorem parse_nesting (source : String) {limit : Nat} (limit' : Nat)
    (h : (parse source limit).2 = []) :
    ((parse source limit').2 = [] ↔ (parse source limit).1.nesting ≤ limit') ∧
      ((parse source limit).1.nesting ≤ limit' → (parse source limit').1 = (parse source limit).1) ∧
      (limit' < (parse source limit).1.nesting → ∃ d ∈ (parse source limit').2,
      d.problem = .tooDeep limit') := by
  obtain ⟨hle, hsame⟩ := parse_of_nesting_le limit' h
  have hdeep (hlt : limit' < (parse source limit).1.nesting) :
      ∃ d ∈ (parse source limit').2, d.problem = .tooDeep limit' := by
    have hlower : limit' ≤ limit := Nat.le_of_lt (Nat.lt_of_lt_of_le hlt hle)
    refine (parse_raised source hlower).resolve_left fun heq => ?_
    -- With the same program and no diagnostics, its levels would be within the lower limit.
    have hclean : (parse source limit').2 = [] := heq ▸ h
    have hle' := (parse_of_nesting_le limit' hclean).1
    rw [← heq] at hle'
    omega
  refine ⟨⟨fun hclean => ?_, fun hroom => by rw [hsame hroom, h]⟩, fun hroom => by
    rw [hsame hroom], hdeep⟩
  by_cases hroom : (parse source limit).1.nesting ≤ limit'
  · exact hroom
  · obtain ⟨d, hd, _⟩ := hdeep (Nat.lt_of_not_le hroom)
    rw [hclean] at hd
    cases hd

/-- An operand, a guard in parentheses and code in a string, in the body of a lambda: six levels, so
that a limit of six is enough and one of five is told to be exceeded. -/
theorem parse_nesting_of_lambda :
    (parse "let f = |x| -[match x \x7b a if (b) => \"\x24\x7bc\x7d\" \x7d]" 48).2 = [] ∧
      (parse "let f = |x| -[match x \x7b a if (b) => \"\x24\x7bc\x7d\" \x7d]" 48).1.nesting = 6 ∧
      (parse "let f = |x| -[match x \x7b a if (b) => \"\x24\x7bc\x7d\" \x7d]" 6).2 = [] ∧
      ∃ d ∈ (parse "let f = |x| -[match x \x7b a if (b) => \"\x24\x7bc\x7d\" \x7d]" 5).2,
      d.problem = .tooDeep 5 := by
  have h : (parse "let f = |x| -[match x \x7b a if (b) => \"\x24\x7bc\x7d\" \x7d]" 48).2 = [] := by
    decide +kernel
  have hnesting :
      (parse "let f = |x| -[match x \x7b a if (b) => \"\x24\x7bc\x7d\" \x7d]" 48).1.nesting =
        6 := by
    decide +kernel
  refine ⟨h, hnesting, (parse_nesting _ 6 h).1.2 (Nat.le_of_eq hnesting),
    (parse_nesting _ 5 h).2.2 ?_⟩
  rw [hnesting]
  decide

end ApiScript
