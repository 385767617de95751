import ApiScript.Proofs.Places.Text
import ApiScript.Proofs.Spelling.Literal

set_option autoImplicit false
set_option relaxedAutoImplicit false

/-!
States of reading within a source: those of the whole text and of code embedded in it. The next
token shows its lexeme there, a number with the sign that belongs to it.
-/

namespace ApiScript

def Span.Shows (source : String) (span : Span) (cs : List Char) : Prop :=
  ∃ text offset front behind, Excerpt source text offset ∧ text.toList = front ++ cs ++ behind ∧
    span = ⟨offset + Text.byteSize front, offset + Text.byteSize front + Text.byteSize cs⟩

namespace Span.Shows

variable {source : String} {span : Span} {cs : List Char}

theorem stop (h : span.Shows source cs) : span.stop = span.start + Text.byteSize cs := by
  obtain ⟨_, _, _, _, _, _, rfl⟩ := h
  rfl

theorem slice (h : span.Shows source cs) :
    Text.slice? span.start span.stop source.toList = some cs := by
  obtain ⟨text, offset, front, behind, he, htext, rfl⟩ := h
  obtain ⟨left, right, hsource, hoffset⟩ := he.piece htext
  rw [hoffset, hsource]
  exact Text.slice?_append left cs right

end Span.Shows

private theorem Text.front_eq {cs front front' behind behind' : List Char}
    (h : cs = front ++ behind) (h' : cs = front' ++ behind')
    (hsize : byteSize front = byteSize front') : front = front' := by
  have hnil {mid : List Char} (hmid : byteSize mid = 0) : mid = [] :=
    Classical.byContradiction fun hne => absurd hmid (Nat.ne_of_gt (byteSize_pos hne))
  rcases List.prefix_or_prefix_of_prefix (⟨behind, h.symm⟩ : front <+: cs)
    ⟨behind', h'.symm⟩ with hp | hp
  all_goals
    obtain ⟨mid, rfl⟩ := hp
    rw [byteSize_append] at hsize
    rw [hnil (show byteSize mid = 0 by omega), List.append_nil]

namespace Grammar.State

variable {source : String} {s t : State}

theorem sees_of_current? {l : Lexeme} (h : s.current? = some l) : s.sees l = true := by
  rw [State.sees, h, beq_self_eq_true]

def Within (source : String) (s : State) : Prop :=
  ∃ text offset, Excerpt source text offset ∧ Reaches (State.ofString text offset) s

namespace Within

theorem ofString {text : String} {offset : Nat} (h : Excerpt source text offset) :
    (State.ofString text offset).Within source := ⟨text, offset, h, .refl _⟩

theorem reaches (h : s.Within source) (ht : Reaches s t) : t.Within source := by
  obtain ⟨text, offset, he, hs⟩ := h
  exact ⟨text, offset, he, hs.trans ht⟩

theorem sound (h : s.Within source) : s.Sound := by
  obtain ⟨text, offset, _, hs⟩ := h
  exact (State.sound_ofString text offset).reaches hs

theorem tokens (h : s.Within source) : ∃ text offset, Excerpt source text offset ∧
    ∀ u ∈ s.tokens, u ∈ (Lexer.ofString text offset).tokenizeFiltered.1 ∧
    u.At text.toList offset := by
  obtain ⟨text, offset, he, ts, hm⟩ := h
  rw [State.tokens_of_moves hm]
  exact ⟨text, offset, he, fun u hu =>
    ⟨(List.mem_filter.1 hu).1, (State.ofString_at text offset).1 u hu⟩⟩

theorem shows (h : s.Within source) {l : Lexeme} (hs : s.current? = some l) (hl : l ≠ .invalid) :
    s.currentSpan.Shows source l.spelling.toList := by
  obtain ⟨next, rest, ha, rfl⟩ := State.sees_iff.1 (State.sees_of_current? hs)
  obtain ⟨text, offset, he, hat⟩ := h.tokens
  obtain ⟨front, mid, behind, htext, -, hspan, hlexeme, -⟩ :=
    (hat next (State.Sound.mem_after (by simp [ha]))).2
  have hspelling : next.lexeme.spelling.toList = mid := by
    rw [hlexeme.resolve_left hl, String.toList_ofList]
  simp only [State.currentSpan, ha, hspelling]
  exact ⟨text, offset, front, behind, he, htext, hspan⟩

theorem shows_signed (h : s.Within source) (hsign : s.atNegativeNumber = true) {l : Lexeme}
    (hs : s.advance.current? = some l) :
    (s.currentSpan.merge s.advance.currentSpan).Shows source ("-" ++ l.spelling).toList := by
  obtain ⟨minus, number, rest, ha, hminus, hsignable, htouches⟩ :=
    State.atNegativeNumber_iff.1 hsign
  obtain ⟨text, offset, he, hat⟩ := h.tokens
  obtain ⟨front, mid, behind, htext, -, hspan, hlexeme, -⟩ :=
    (hat minus (State.Sound.mem_after (by simp [ha]))).2
  obtain ⟨front', mid', behind', htext', -, hspan', hlexeme', -⟩ :=
    (hat number (State.Sound.mem_after (by simp [ha]))).2
  have hl : number.lexeme = l := by simpa [State.current?, State.peek?, State.advance, ha] using hs
  have hsigned : mid = "-".toList := by
    rw [hminus] at hlexeme
    have hspelling := congrArg String.toList (hlexeme.resolve_left (by decide))
    rwa [String.toList_ofList, eq_comm] at hspelling
  have hspelling : l.spelling.toList = mid' := by
    have hvalid : number.lexeme ≠ .invalid := by
      intro hinvalid
      rw [hinvalid] at hsignable
      cases hsignable
    rw [← hl, hlexeme'.resolve_left hvalid, String.toList_ofList]
  have hfront : front ++ mid = front' := by
    refine Text.front_eq htext (htext'.trans (List.append_assoc _ _ _)) ?_
    simp only [Span.touches, hspan, hspan', beq_iff_eq] at htouches
    rw [Text.byteSize_append]
    omega
  refine ⟨text, offset, front, behind', he, ?_, ?_⟩
  · rw [htext', ← hfront, hsigned, String.toList_append, hspelling]
    simp only [List.append_assoc]
  · simp only [State.currentSpan, State.advance, ha, Span.merge, hspan, hspan', ← hfront, hsigned,
      String.toList_append, hspelling, Text.byteSize_append]
    rw [Span.mk.injEq]
    omega

theorem code (h : s.Within source) {raw : String}
    (hs : s.current? = some (.string .interpolated raw)) {segments : List Quoted.Segment}
    (hsplit : Quoted.split raw s.currentSpan = .ok segments) {code : String} {offset : Nat}
    (hc : .code code offset ∈ segments) : Excerpt source code offset := by
  obtain ⟨next, rest, ha, hl⟩ := State.sees_iff.1 (State.sees_of_current? hs)
  obtain ⟨text, start, he, hat⟩ := h.tokens
  simp only [State.currentSpan, ha] at hsplit
  exact .code he (hat next (State.Sound.mem_after (by simp [ha]))).1 hl hsplit hc

end Within

end Grammar.State

end ApiScript
