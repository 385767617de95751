import ApiScript.Proofs.Lexing.Embedded
import ApiScript.Report.Mark

set_option autoImplicit false
set_option relaxedAutoImplicit false

/-!
Places in a text: the offsets between its characters, and the spans from one of them to another. A
span like this has a piece of the text under it, and a report marks at least one character for it.
-/

namespace ApiScript

namespace Text

/-- An offset in front of a character or at the end of the text. -/
def Boundary (cs : List Char) (n : Nat) : Prop :=
  ∃ front behind, cs = front ++ behind ∧ n = byteSize front

namespace Boundary

variable {cs : List Char} {n m : Nat}

private theorem start (cs : List Char) : Boundary cs 0 := ⟨[], cs, rfl, rfl⟩

theorem stop (cs : List Char) : Boundary cs (byteSize cs) :=
  ⟨cs, [], (List.append_nil cs).symm, rfl⟩

theorem le (h : Boundary cs n) : n ≤ byteSize cs := by
  obtain ⟨front, behind, rfl, rfl⟩ := h
  rw [byteSize_append]
  exact Nat.le_add_right _ _

private theorem min (h : Boundary cs n) (h' : Boundary cs m) : Boundary cs (min n m) := by
  rcases Nat.le_total n m with hle | hle
  · rwa [Nat.min_eq_left hle]
  · rwa [Nat.min_eq_right hle]

private theorem max (h : Boundary cs n) (h' : Boundary cs m) : Boundary cs (max n m) := by
  rcases Nat.le_total n m with hle | hle
  · rwa [Nat.max_eq_right hle]
  · rwa [Nat.max_eq_left hle]

end Boundary

end Text

structure Span.Over (cs : List Char) (span : Span) : Prop where
  le : span.start ≤ span.stop
  start : Text.Boundary cs span.start
  stop : Text.Boundary cs span.stop

namespace Span.Over

variable {cs : List Char} {a b : Span}

theorem piece {front mid behind : List Char} (h : cs = front ++ mid ++ behind) :
    Over cs ⟨Text.byteSize front, Text.byteSize front + Text.byteSize mid⟩ where
  le := Nat.le_add_right _ _
  start := ⟨front, mid ++ behind, by rw [h, List.append_assoc], rfl⟩
  stop := ⟨front ++ mid, behind, h, (Text.byteSize_append _ _).symm⟩

theorem merge (ha : a.Over cs) (hb : b.Over cs) : (a.merge b).Over cs where
  le := Nat.le_trans (Nat.min_le_left _ _) (Nat.le_trans ha.le (Nat.le_max_left _ _))
  start := ha.start.min hb.start
  stop := ha.stop.max hb.stop

theorem point {n : Nat} (h : Text.Boundary cs n) : (Span.point n).Over cs := ⟨Nat.le_refl _, h, h⟩

theorem marked (h : a.Over cs) : ∃ range, Report.marked? cs a = some range ∧ range.Over cs ∧
    (cs ≠ [] → range.start < range.stop) := by
  have hstart := h.start.le
  have hstop := h.stop.le
  unfold Report.marked?
  dsimp only
  rw [Nat.min_eq_left hstart, Nat.min_eq_left hstop]
  by_cases hlt : a.start < a.stop
  · exact ⟨a, if_pos hlt, h, fun _ => hlt⟩
  rw [if_neg hlt]
  obtain ⟨front, behind, rfl, hfront⟩ := h.start
  rw [hfront, Text.dropBytes?_append]
  cases behind with
  | cons c behind =>
    have hpiece :
        Over (front ++ c :: behind)
          ⟨Text.byteSize front, Text.byteSize front + Text.byteSize [c]⟩ :=
      piece (by rw [List.append_assoc, List.singleton_append])
    exact ⟨_, rfl, hpiece, fun _ => Nat.lt_add_of_pos_right c.utf8Size_pos⟩
  | nil =>
    rw [List.append_nil]
    cases hlast : front.getLast? with
    | none =>
      rw [List.getLast?_eq_none_iff.1 hlast]
      exact ⟨⟨0, 0⟩, rfl, point (.start []), fun hne => absurd rfl hne⟩
    | some c =>
      obtain ⟨front, rfl⟩ := List.getLast?_eq_some_iff.1 hlast
      have hpiece :
          Over (front ++ [c]) ⟨Text.byteSize front, Text.byteSize front + Text.byteSize [c]⟩ :=
        piece (List.append_nil _).symm
      have hsize : Text.byteSize (front ++ [c]) - c.utf8Size = Text.byteSize front := by
        rw [Text.byteSize_append, Text.byteSize_cons, Text.byteSize_nil, Nat.add_zero,
          Nat.add_sub_cancel]
      refine ⟨⟨Text.byteSize (front ++ [c]) - c.utf8Size, Text.byteSize (front ++ [c])⟩, rfl, ?_,
        fun _ => ?_⟩
      · rwa [hsize, Text.byteSize_append]
      · rw [hsize, Text.byteSize_append]
        exact Nat.lt_add_of_pos_right c.utf8Size_pos

end Span.Over

theorem Excerpt.boundary {source text : String} {offset n : Nat} (h : Excerpt source text offset)
    (hn : Text.Boundary text.toList n) : Text.Boundary source.toList (offset + n) := by
  obtain ⟨left, right, hsource, rfl⟩ := h.placed
  obtain ⟨front, behind, htext, rfl⟩ := hn
  exact ⟨left ++ front, behind ++ right, by simp only [hsource, htext, List.append_assoc],
    (Text.byteSize_append _ _).symm⟩

theorem Excerpt.piece {source text : String} {offset : Nat} (h : Excerpt source text offset)
    {front mid behind : List Char} (htext : text.toList = front ++ mid ++ behind) :
    ∃ left right, source.toList = left ++ mid ++ right ∧
      offset + Text.byteSize front = Text.byteSize left := by
  obtain ⟨left, right, hsource, rfl⟩ := h.placed
  exact ⟨left ++ front, behind ++ right, by simp only [hsource, htext, List.append_assoc],
    (Text.byteSize_append _ _).symm⟩

end ApiScript
