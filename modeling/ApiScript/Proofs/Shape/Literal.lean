import ApiScript.Proofs.Shape.Reader

set_option autoImplicit false
set_option relaxedAutoImplicit false

/-!
Literals are sound: a number is decoded from its spelling, and the segments of a string are split no
further than the code in it asks for. Embedded code is within the source as its string is.
-/

namespace ApiScript

/-- Texts, with code where there is none: no text is empty, and none follows another. -/
def Text.Joined (texts : List (Option String)) : Prop :=
  some "" ∉ texts ∧ texts.IsChain fun a b => a = none ∨ b = none

namespace Quoted

def Segment.text? : Segment → Option String
  | text value => some value
  | code _ _ => none

private theorem joined_pending (read : List Char) :
    Text.Joined ((pendingChars read).map Segment.text?) := by
  cases read with
  | nil => exact ⟨List.not_mem_nil, .nil⟩
  | cons c read =>
    refine ⟨fun h => ?_, .singleton _⟩
    have hempty := Option.some.inj (List.mem_singleton.1 h)
    exact absurd (String.ofList_eq_empty_iff.1 hempty.symm) (by simp)

private theorem joined_segments (read : List Char) (es : List Element) :
    Text.Joined ((segments read es).map Segment.text?) := by
  induction es generalizing read with
  | nil => exact joined_pending read
  | cons e es ih =>
    cases e with
    | char c => exact ih (c :: read)
    | byte b => exact ih (Char.ofNat b.toNat :: read)
    | code source offset =>
      obtain ⟨hfront, hfrontChain⟩ := joined_pending read
      obtain ⟨hrest, hrestChain⟩ := ih []
      rw [segments, List.map_append, List.map_cons]
      constructor
      · simp only [List.mem_append, List.mem_cons, Segment.text?, reduceCtorEq, false_or, not_or]
        exact ⟨hfront, hrest⟩
      · refine List.isChain_append.2
          ⟨hfrontChain, List.isChain_cons.2 ⟨fun _ _ => .inl rfl, hrestChain⟩, ?_⟩
        intro _ _ b hb
        cases hb
        exact .inr rfl

theorem split_joined {raw : String} {span : Span} {segments : List Segment}
    (h : split raw span = .ok segments) :
    Text.Joined (segments.map Segment.text?) := by
  unfold split at h
  split at h
  · cases h
  · rw [splitFrom_nil] at h
    cases hes : elements (some (unterminated '"' span)) (span.start + 1) _ with
    | error e =>
      rw [hes] at h
      cases h
    | ok es =>
      rw [hes] at h
      cases h
      exact joined_segments [] es

end Quoted

namespace StringLiteral

variable {parts : List StringPart} {span : Span}

private theorem normal_of_joined (h : Text.Joined (parts.map StringPart.text?)) :
    Normal ⟨.double, parts, span⟩ where
  nonempty hmem := h.1 (List.mem_map_of_mem hmem)
  apart := (List.isChain_map StringPart.text?).1 h.2
  single hq := by cases hq

private theorem normal_of_text (text : String) :
    Normal ⟨.single, if text.isEmpty then [] else [.text text], span⟩ := by
  by_cases hempty : text.isEmpty = true
  · rw [if_pos hempty]
    exact ⟨List.not_mem_nil, .nil, fun _ => .inl rfl⟩
  · rw [if_neg hempty]
    refine ⟨fun h => hempty ?_, .singleton _, fun _ => .inr ⟨text, rfl⟩⟩
    cases List.mem_singleton.1 h
    rfl

end StringLiteral

namespace Grammar

variable {scope : Scope} {inner : Inner} {s t : State}

/-- The part stands for the segment: the same text, or the expression that the code is read as,
where nothing is reported that is not in the log. -/
inductive PartOf (inner : Inner) (log : List Diagnostic) : StringPart → Quoted.Segment → Prop
  | text (text : String) : PartOf inner log (.text text) (.text text)
  | code {e : Expr} {code : String} {offset : Nat} {finish : State}
    (h : Reads (wholeExpression inner) (State.ofString code offset) e finish)
    (hlog : finish.log ⊆ log) :
    PartOf inner log (.code e) (.code code offset)

/-- Strings that are read with the parsers of the nodes one level deeper are as the scope asks. -/
class Quotes (scope : Scope) (inner : Inner) : Prop where
  meets {expected : Expectation} {s t : State} {l : StringLiteral} : s.Within scope.source →
    t.log ⊆ scope.log →
    Reads (string inner expected) s l t → scope.string l

section Strings

theorem stringParts_of {log : List Diagnostic} {segments : List Quoted.Segment}
    {parts : List StringPart} (hlog : t.log ⊆ log)
    (h : Reads (stringParts inner segments) s parts t) :
    List.Forall₂ (PartOf inner log) parts segments := by
  induction segments generalizing s t parts with
  | nil =>
    rw [(reads_pure.1 h).1]
    exact .nil
  | cons segment segments ih =>
    cases segment with
    | text text =>
      simp only [stringParts, reads_bind, reads_pure] at h
      obtain ⟨rest, _, hrest, rfl, rfl⟩ := h
      exact .cons (.text text) (ih hlog hrest)
    | code code offset =>
      simp only [stringParts, reads_bind, reads_pure] at h
      obtain ⟨e, u, he, rest, _, hrest, rfl, rfl⟩ := h
      obtain ⟨finish, -, hwhole, rfl⟩ := reads_embedded.1 he
      have hreport := List.Subset.trans (stringParts_moves hrest).log.subset hlog
      exact .cons (.code hwhole
        (List.Subset.trans (List.subset_append_right s.log finish.log) hreport)) (ih hlog hrest)

private theorem texts_of_parts {log : List Diagnostic} {segments : List Quoted.Segment}
    {parts : List StringPart} (h : List.Forall₂ (PartOf inner log) parts segments) :
    parts.map StringPart.text? = segments.map Quoted.Segment.text? := by
  induction h with
  | nil => rfl
  | cons hpart _ ih =>
    rw [List.map_cons, List.map_cons, ih]
    cases hpart <;> rfl

variable [Yields scope (inner .expression)]

private theorem fits_parts {segments : List Quoted.Segment} {parts : List StringPart}
    (hsegments : ∀ code offset, .code code offset ∈ segments → Excerpt scope.source code offset)
    (h : List.Forall₂ (PartOf inner scope.log) parts segments) : Fits scope parts := by
  induction h with
  | nil => infer_instance
  | cons hpart _ ih =>
    have hrest := ih fun code offset hc => hsegments code offset (List.mem_cons_of_mem _ hc)
    cases hpart with
    | text text => infer_instance
    | @code e code offset finish hread hlog =>
      have he : Fits scope e :=
        Yields.yields (.ofString (hsegments code offset (List.mem_cons_self ..))) hlog
        (reads_wholeExpression.1 hread).2.1
      infer_instance

instance [Quotes scope inner] (expected : Expectation) : Yields scope (string inner expected) where
  yields {s t l} hs hlog hr := by
    have hscope : scope.string l := Quotes.meets hs hlog hr
    rcases reads_string hr with
      ⟨raw, segments, u, hcurrent, hsplit, hparts, hl, rfl⟩ | ⟨raw, text, _, _, rfl, _⟩
    · have hof := stringParts_of (List.Subset.trans (Reaches.advance u).log.subset hlog) hparts
      have := fits_parts (fun code offset => hs.code hcurrent hsplit) hof
      rw [hl] at hscope ⊢
      refine fits_string _ (StringLiteral.normal_of_joined ?_) hscope
      rw [texts_of_parts hof]
      exact Quoted.split_joined hsplit
    · have hparts : Fits scope (if text.isEmpty then [] else [StringPart.text text]) := by
        split <;> infer_instance
      exact fits_string _ (StringLiteral.normal_of_text text) hscope

end Strings

section Numbers

private theorem State.Within.shows_literal {source : String} (hs : s.Within source) {l : Lexeme}
    (hl : s.behindSign.current? = some l) (hvalid : l ≠ .invalid) :
    (s.currentSpan.merge s.behindSign.currentSpan).Shows source (s.sign ++ l.spelling).toList := by
  unfold State.behindSign State.sign at *
  split at hl
  · rename_i hsign
    simp only [hsign, ↓reduceIte]
    exact hs.shows_signed hsign hl
  · rename_i hsign
    simp only [hsign, Bool.false_eq_true, ↓reduceIte, String.empty_append, Span.merge_self]
    exact hs.shows hl hvalid

private theorem State.sign_eq_empty {l : Lexeme} (hl : s.behindSign.current? = some l)
    (hsignable : l.isSignable = false) :
    s.sign = "" := by
  unfold State.behindSign State.sign at *
  split at hl
  · rename_i hsign
    cases hsignable.symm.trans (State.current?_behind_minus hsign hl)
  · rename_i hsign
    simp only [hsign, Bool.false_eq_true, ↓reduceIte]

private theorem State.Within.faithful {source : String} (hs : s.Within source) {found : Lexeme}
    (hfound : s.behindSign.current? = some found) {l : Literal}
    (hl : Denotes s.sign (s.currentSpan.merge s.behindSign.currentSpan) found l) :
    l.Faithful source := by
  cases hl with
  | integer h | float h => exact ⟨(hs.shows_literal hfound (by simp)).slice, h⟩
  | duration h | size h =>
    have hholds := (hs.shows_literal hfound (by simp)).slice
    rw [State.sign_eq_empty hfound rfl, String.empty_append] at hholds
    exact ⟨hholds, h⟩
  | bytes | true_ | false_ | null => trivial

instance [Yields scope (inner .expression)] [Quotes scope inner] :
    Yields scope (literal inner) where
  yields {s t l} hs hlog hr := by
    rcases reads_literal hr with ⟨string, rfl, hstring⟩ | ⟨found, hfound, hl, _⟩
    · have hbehind : Reaches s s.behindSign := by
        unfold State.behindSign
        split
        · exact .advance s
        · exact .refl s
      have : Fits scope string := Yields.yields (hs.reaches hbehind) hlog hstring
      infer_instance
    · refine fits_literal (hs.faithful hfound hl) ?_
      rintro string rfl
      cases hl

end Numbers

end Grammar

end ApiScript
