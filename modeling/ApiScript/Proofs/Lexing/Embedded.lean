import ApiScript.Proofs.Lexing.Tokens
import ApiScript.Proofs.Lexing.Element

set_option autoImplicit false
set_option relaxedAutoImplicit false

/-!
Where embedded code stands: a piece of the text that its string was read from, in front of the code
behind it. A text found in a source this way is an excerpt of it.
-/

namespace ApiScript

namespace Text

theorem dropBytes?_append (cs ds : List Char) : dropBytes? (byteSize cs) (cs ++ ds) = some ds := by
  induction cs with
  | nil => cases ds <;> simp [dropBytes?]
  | cons c cs ih =>
    have hpos := c.utf8Size_pos
    have hne : c.utf8Size + byteSize cs ≠ 0 := by omega
    simp only [List.cons_append, byteSize_cons, dropBytes?, hne, ↓reduceIte, Nat.le_add_right,
      Nat.add_sub_cancel_left, ih]

theorem takeBytes?_append (cs ds : List Char) : takeBytes? (byteSize cs) (cs ++ ds) = some cs := by
  induction cs with
  | nil => cases ds <;> simp [takeBytes?]
  | cons c cs ih =>
    have hpos := c.utf8Size_pos
    have hne : c.utf8Size + byteSize cs ≠ 0 := by omega
    simp only [List.cons_append, byteSize_cons, takeBytes?, hne, ↓reduceIte, Nat.le_add_right,
      Nat.add_sub_cancel_left, ih, Option.map_some]

theorem slice?_append (front mid behind : List Char) :
    slice? (byteSize front) (byteSize front + byteSize mid) (front ++ mid ++ behind) =
      some mid := by
  rw [slice?, if_pos (Nat.le_add_right _ _), List.append_assoc, dropBytes?_append, Option.bind_some,
    Nat.add_sub_cancel_left, takeBytes?_append]

end Text

namespace Quoted

/-- Texts that stand in order in `cs`, which begins at `offset`, each with its own offset. -/
inductive Laid : List Char → Nat → List (String × Nat) → Prop
  | done {cs : List Char} {offset : Nat} : Laid cs offset []
  | behind {cs : List Char} {offset : Nat} {codes : List (String × Nat)} (front : List Char)
    (h : Laid cs (offset + Text.byteSize front) codes) : Laid (front ++ cs) offset codes
  | code {cs : List Char} {offset : Nat} {codes : List (String × Nat)} (source : String)
    (h : Laid cs (offset + Text.byteSize source.toList) codes) :
    Laid (source.toList ++ cs) offset ((source, offset) :: codes)

namespace Laid

variable {cs : List Char} {offset : Nat} {codes : List (String × Nat)}

private theorem placed (h : Laid cs offset codes) {code : String × Nat} (hc : code ∈ codes) :
    ∃ front behind, cs = front ++ code.1.toList ++ behind ∧
    code.2 = offset + Text.byteSize front := by
  induction h with
  | done => cases hc
  | behind front _ ih =>
    obtain ⟨front', behind, rfl, hoffset⟩ := ih hc
    exact ⟨front ++ front', behind, by simp, by rw [hoffset, Text.byteSize_append, Nat.add_assoc]⟩
  | code source _ ih =>
    rcases List.mem_cons.1 hc with rfl | hc
    · exact ⟨[], _, rfl, rfl⟩
    · obtain ⟨front', behind, rfl, hoffset⟩ := ih hc
      exact ⟨source.toList ++ front',
        behind, by simp, by rw [hoffset, Text.byteSize_append, Nat.add_assoc]⟩

private theorem append (h : Laid cs offset codes) (ds : List Char) :
    Laid (cs ++ ds) offset codes := by
  induction h with
  | done => exact .done
  | behind front _ ih =>
    rw [List.append_assoc]
    exact .behind front ih
  | code source _ ih =>
    rw [List.append_assoc]
    exact .code source ih

theorem ordered (h : Laid cs offset codes) :
    codes.Pairwise fun a b => a.2 + Text.byteSize a.1.toList ≤ b.2 := by
  induction h with
  | done => exact .nil
  | behind _ _ ih => exact ih
  | code source h ih =>
    refine List.pairwise_cons.2 ⟨fun b hb => ?_, ih⟩
    obtain ⟨front, _, _, hoffset⟩ := h.placed hb
    rw [hoffset]
    exact Nat.le_add_right _ _

end Laid

def Element.code? : Element → Option (String × Nat)
  | .code source offset => some (source, offset)
  | _ => none

def Segment.code? : Segment → Option (String × Nat)
  | .code source offset => some (source, offset)
  | .text _ => none

theorem segments_code? (read : List Char) (es : List Element) :
    (segments read es).filterMap Segment.code? = es.filterMap Element.code? := by
  have hpending (read : List Char) : (pendingChars read).filterMap Segment.code? = [] := by
    unfold pendingChars
    split <;> rfl
  induction es generalizing read with
  | nil => exact hpending read
  | cons e es ih =>
    cases e with
    | char c => exact ih _
    | byte b => exact ih _
    | code source offset =>
      simp only [segments, List.filterMap_append, hpending, List.nil_append, List.filterMap_cons,
        Segment.code?, Element.code?, ih]

private theorem Laid.braced {cs : List Char} {offset n : Nat} {codes : List (String × Nat)}
    (h : Laid (cs.drop n) (offset + Text.byteSize (cs.take n)) codes) :
    Laid cs offset ((String.ofList (cs.take (n - 1)), offset) :: codes) := by
  have htake : cs.take n = cs.take (n - 1) ++ (cs.take n).drop (n - 1) := by
    have hsplit := List.take_append_drop (n - 1) (cs.take n)
    rw [List.take_take, Nat.min_eq_left (Nat.sub_le n 1)] at hsplit
    exact hsplit.symm
  have hcs : cs = (String.ofList (cs.take (n - 1))).toList ++
      ((cs.take n).drop (n - 1) ++ cs.drop n) := by
    rw [String.toList_ofList, ← List.append_assoc, ← htake, List.take_append_drop]
  have hcode : Laid ((cs.take n).drop (n - 1) ++ cs.drop n)
      (offset + Text.byteSize (String.ofList (cs.take (n - 1))).toList) codes := by
    refine .behind _ ?_
    rwa [String.toList_ofList, Nat.add_assoc, ← Text.byteSize_append, ← htake]
  have hlaid := Laid.code _ hcode
  rwa [← hcs] at hlaid

section Map

variable {α β : Type} {f : α → β} {r : Except LexicalError α}

theorem ok_of_map {b : β} (h : r.map f = .ok b) : ∃ a, r = .ok a ∧ f a = b := by
  cases r with
  | ok a => exact ⟨a, rfl, Except.ok.inj h⟩
  | error e => cases h

theorem error_of_map {e : LexicalError} (h : r.map f = .error e) : r = .error e := by
  cases r with
  | ok a => cases h
  | error d => rw [Except.error.inj h]

end Map

private theorem elementsWithin_laid {unclosed : Option LexicalError} {bound offset : Nat}
    {cs : List Char} {es : List Element} (h : elementsWithin unclosed bound offset cs = .ok es) :
    Laid cs offset (es.filterMap Element.code?) := by
  induction bound generalizing offset cs es with
  | zero =>
    cases Except.ok.inj h
    exact .done
  | succ bound ih =>
    cases cs with
    | nil =>
      cases Except.ok.inj h
      exact .done
    | cons c cs =>
      unfold elementsWithin at h
      split at h
      · split at h
        · cases h
        · rename_i escaped n _
          obtain ⟨es, hes, rfl⟩ := ok_of_map h
          have hcode : (Element.ofEscaped escaped).code? = none := by cases escaped <;> rfl
          have hrest : Laid (cs.drop n) (offset + Text.byteSize ('\\' :: cs.take n))
              (es.filterMap Element.code?) := by
            rw [Text.byteSize_cons, ← Nat.add_assoc]
            exact ih hes
          have hlaid := Laid.behind _ hrest
          rw [List.filterMap_cons_none hcode]
          rwa [List.cons_append, List.take_append_drop] at hlaid
      · split at h
        · cases h
        · rename_i cs _ _ n _
          obtain ⟨es, hes, rfl⟩ := ok_of_map h
          simp only [List.filterMap_cons, Element.code?]
          exact .behind ['$', '{'] (Laid.braced (ih hes))
      · obtain ⟨es, hes, rfl⟩ := ok_of_map h
        rw [List.filterMap_cons_none rfl]
        exact .behind [c] (ih hes)

theorem unquote?_eq_some {quote : Char} {cs body : List Char} (h : unquote? quote cs = some body) :
    cs = quote :: body ++ [quote] := by
  unfold unquote? at h
  split at h
  · cases h
  · split at h
    · rename_i c cs hquote
      obtain ⟨rfl, hlast⟩ := hquote
      obtain ⟨front, rfl⟩ := List.getLast?_eq_some_iff.1 hlast
      rw [← Option.some.inj h, List.dropLast_concat, List.cons_append]
    · cases h

/-- Embedded code stands inside of its string, in order. -/
theorem split_laid {raw : String} {span : Span} {segments : List Segment}
    (h : split raw span = .ok segments) :
    Laid raw.toList span.start (segments.filterMap Segment.code?) := by
  unfold split at h
  split at h
  · cases h
  · rename_i body hbody
    rw [splitFrom_nil] at h
    obtain ⟨es, hes, rfl⟩ := ok_of_map h
    rw [segments_code?, unquote?_eq_some hbody, List.cons_append]
    exact .behind ['"'] ((elementsWithin_laid hes).append ['"'])

end Quoted

/-- The texts that a source is read as: all of it, and the code embedded in the strings of another
such text, each with its offset. -/
inductive Excerpt (source : String) : String → Nat → Prop
  | whole : Excerpt source source 0
  | code {text : String} {offset : Nat} {t : Token} {raw : String} {segments : List Quoted.Segment}
    {inner : String} {start : Nat} (outer : Excerpt source text offset)
    (ht : t ∈ (Lexer.ofString text offset).tokenizeFiltered.1)
    (hl : t.lexeme = .string .interpolated raw)
    (hs : Quoted.split raw t.span = .ok segments) (hc : .code inner start ∈ segments) :
    Excerpt source inner start

theorem Token.At.string {cs : List Char} {offset : Nat} {t : Token} {kind : StringClass}
    {raw : String} (h : t.At cs offset) (hl : t.lexeme = .string kind raw) :
    ∃ front behind, cs = front ++ raw.toList ++ behind ∧
      t.span = ⟨offset + Text.byteSize front, offset + Text.byteSize front +
        Text.byteSize raw.toList⟩ := by
  obtain ⟨front, mid, behind, rfl, _, hspan, hlexeme, _⟩ := h
  have hraw : raw = String.ofList mid := by
    rcases hlexeme with hinvalid | hspelling
    · rw [hl] at hinvalid
      cases hinvalid
    · rwa [hl] at hspelling
  subst hraw
  exact ⟨front, behind, by rw [String.toList_ofList], by rw [hspan, String.toList_ofList]⟩

theorem Quoted.within_of_split {raw : String} {span : Span} {segments : List Segment}
    {inner : String} {start : Nat} (h : split raw span = .ok segments)
    (hc : .code inner start ∈ segments) :
    ∃ front behind, raw.toList = front ++ inner.toList ++ behind ∧ start = span.start +
      Text.byteSize front :=
  (split_laid h).placed (List.mem_filterMap.2 ⟨_, hc, rfl⟩)

theorem Lexer.tokenizeFiltered_at {text : String} {offset : Nat} {t : Token}
    (h : t ∈ (Lexer.ofString text offset).tokenizeFiltered.1) : t.At text.toList offset :=
  (Lexer.steps_at text.toList.length (Lexer.ofString text offset)).1 t (List.mem_filter.1 h).1

theorem Excerpt.placed {source text : String} {offset : Nat} (h : Excerpt source text offset) :
    ∃ front behind, source.toList = front ++ text.toList ++ behind ∧
    offset = Text.byteSize front := by
  induction h with
  | whole => exact ⟨[], [], by simp, rfl⟩
  | code _ ht hl hs hc ih =>
    obtain ⟨front, behind, hsource, rfl⟩ := ih
    obtain ⟨front', behind', htext, hspan⟩ := (Lexer.tokenizeFiltered_at ht).string hl
    obtain ⟨front'', behind'', hraw, rfl⟩ := Quoted.within_of_split hs hc
    refine ⟨front ++ (front' ++ front''), behind'' ++ (behind' ++ behind), ?_, ?_⟩
    · simp only [hsource, htext, hraw, List.append_assoc]
    · rw [hspan, Text.byteSize_append, Text.byteSize_append, Nat.add_assoc]

end ApiScript
