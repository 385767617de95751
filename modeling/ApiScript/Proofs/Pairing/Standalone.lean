import ApiScript.Proofs.Limit.Raised
import ApiScript.Proofs.Pairing.Isolation

set_option autoImplicit false
set_option relaxedAutoImplicit false

/-!
Code embedded in a string beside the same code as a text of its own. Both are read the same way, as
many bytes apart as there are in front of the code, unless the levels that are spent around the
string are missed in the code.
-/

namespace ApiScript

open Grammar Placed

namespace Grammar

variable {limit room : Nat} {code : String} {offset : Nat} {e : Expr} {t : State}

theorem Agree.exists_reads {α : Type} [Placed α] {R : Regime} {b : Bool} {p q : Parser α}
    {s u v : State} {a : α} (h : Agree R b p q s u) (hp : Reads p s a v) :
    ∃ a' w, Reads q u a' w ∧ R.Same a a' ∧ Twins R b v w := by
  unfold Agree at h
  rw [show p s = .ok a v from hp] at h
  generalize hq : q u = r at h
  cases h with
  | ok hsame htwins => exact ⟨_, _, hq, hsame, htwins⟩

/-- A text that is found at some offset is read as it is alone, and what is reported is reported
within it. -/
private theorem reads_standalone
    (h : Reads (wholeExpression (enter limit room)) (State.ofString code offset) e t) :
    (∃ e' t', Reads (wholeExpression (enter limit room)) (State.ofString code 0) e' t' ∧
    e'.respan (.shift offset) = e) ∧
      ∀ d ∈ t.log, offset ≤ d.span.start ∧ d.span.start ≤ offset + Text.byteSize code.toList := by
  obtain ⟨hafter, hlog, hbroken⟩ := State.ofString_shift code offset
  have htwins : Twins { Regime.behind (State.ofString code offset) offset with log := [] } false
      (State.ofString code offset) (State.ofString code 0) :=
    twins_behind hafter (Nat.add_comm _ _) hbroken hlog
  obtain ⟨e', t', hread, hsame, hend⟩ :=
    (agree_wholeExpression (alike_enter limit room) htwins).exists_reads h
  obtain ⟨ds, ds', hds, _, hlogs, hbound⟩ := hend.log
  refine ⟨⟨e', t', hread, ?_⟩, fun d hd => ?_⟩
  · exact hsame.symm.trans e.respan_id
  · rw [hds, List.nil_append] at hd
    have hlogs' : ds = ds'.map (Diagnostic.respan (.shift offset)) :=
      (Diagnostic.map_respan_id ds).symm.trans hlogs
    have hle : d.span.start ≤ offset + code.utf8ByteSize := hbound d hd
    rw [hlogs'] at hd
    obtain ⟨d', _, rfl⟩ := List.mem_map.1 hd
    rw [Text.utf8ByteSize_eq] at hle
    exact ⟨Nat.le_add_left _ _, hle⟩

end Grammar

variable {room : Nat} {code : String} {offset : Nat} {e : Expr} {t : State}

/-- Embedded code is read as the expression that it is alone, unless it is told in it that the limit
was exceeded. -/
theorem parseExpr_of_embedded (hroom : room ≤ Session.defaultLimit)
    (h : Reads (wholeExpression (enter Session.defaultLimit room))
    (State.ofString code offset) e t) :
    (parseExpr code).1.map (Expr.respan (.shift offset)) = some e ∨
      ∃ d ∈ t.log, d.problem = .tooDeep Session.defaultLimit ∧ offset ≤ d.span.start ∧
        d.span.start ≤ offset + Text.byteSize code.toList := by
  have hinner (entry : Entry) : Raised Session.defaultLimit (enter Session.defaultLimit room entry)
      (enter Session.defaultLimit Session.defaultLimit entry) := raised_enter hroom entry
  have hwhole : Raised Session.defaultLimit (wholeExpression (enter Session.defaultLimit room))
      (wholeExpression (enter Session.defaultLimit Session.defaultLimit)) := inferInstance
  rcases hwhole.same (State.ofString code offset) with heq | hcut
  · obtain ⟨⟨e', t', hread, he⟩, _⟩ := reads_standalone (heq.symm.trans h)
    have halone : parseExpr code = (some e', t'.log) := parseExpr_eq_some.2 ⟨t', hread, rfl⟩
    exact .inl (by rw [halone, Option.map_some, he])
  · rw [show wholeExpression (enter Session.defaultLimit room) (State.ofString code offset) =
      .ok e t from h] at hcut
    obtain ⟨d, hd, htells⟩ := hcut
    exact .inr ⟨d, hd, htells, (reads_standalone h).2 d hd⟩

end ApiScript
