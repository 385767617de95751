import ApiScript.Proofs.Lexing.Enclosed
import ApiScript.Proofs.Lexing.Steps
import ApiScript.Proofs.Numeral.Integer
import ApiScript.Proofs.Places.Text

set_option autoImplicit false
set_option relaxedAutoImplicit false

/-!
Where lexical errors stand: each lies over a piece of the text that was read or decoded, and an
error that quotes a text quotes that piece. Of the numbers only an integer is at fault, and only for
its size.
-/

namespace ApiScript

def LexicalFault.quoted? : LexicalFault → Option String
  | unexpectedCharacter found => some found.toString
  | invalidEscape sequence _ => some sequence
  | invalidNumber _ text _ => some text
  | unterminatedString _ | unterminatedComment => none

/-- A fault that the text of a lexeme can have: a number is at fault only if it is an integer that
64 bits do not hold. -/
def LexicalFault.Possible : LexicalFault → Prop
  | invalidNumber kind text reason =>
    kind = .integer ∧ reason = .outOfRange ∧ ∃ v, Numeral.Spells text.toList v ∧ ¬Numeral.Fits v
  | unexpectedCharacter _ | unterminatedString _ | unterminatedComment | invalidEscape .. => True

theorem LexicalFault.possible_of_quoted {fault : LexicalFault} (h : fault.quoted? = none) :
    fault.Possible := by
  cases fault with
  | invalidNumber kind text reason => cases h
  | _ => trivial

/-- The error is possible, lies over a piece of a text that begins at `offset`, and quotes nothing
else. -/
def LexicalError.At (cs : List Char) (offset : Nat) (e : LexicalError) : Prop :=
  e.fault.Possible ∧ ∃ front piece behind, cs = front ++ piece ++ behind ∧
    e.span = ⟨offset + Text.byteSize front, offset + Text.byteSize front + Text.byteSize piece⟩ ∧
    ∀ quoted, e.fault.quoted? = some quoted → quoted.toList = piece

namespace LexicalError.At

variable {cs : List Char} {offset : Nat} {e : LexicalError}

theorem inside (front behind : List Char) (h : e.At cs (offset + Text.byteSize front)) :
    e.At (front ++ cs ++ behind) offset := by
  obtain ⟨hpossible, left, piece, right, rfl, hspan, hquoted⟩ := h
  refine ⟨hpossible, front ++ left, piece, right ++ behind, by
    simp only [List.append_assoc], ?_, hquoted⟩
  rw [hspan, Text.byteSize_append, Nat.add_assoc offset]

private theorem behind (front : List Char) (h : e.At cs (offset + Text.byteSize front)) :
    e.At (front ++ cs) offset := by
  have hinside := h.inside front []
  rwa [List.append_nil] at hinside

private theorem whole {span : Span} (hspan : span.stop = span.start + Text.byteSize cs)
    {fault : LexicalFault} (hpossible : fault.Possible)
    (hquoted : ∀ quoted, fault.quoted? = some quoted → quoted.toList = cs) :
    LexicalError.At cs span.start ⟨fault, span⟩ := by
  refine ⟨hpossible, [], cs, [], by rw [List.nil_append, List.append_nil], ?_, hquoted⟩
  rw [Text.byteSize_nil, Nat.add_zero, ← hspan]

end LexicalError.At

namespace Lexeme

theorem scan_fault {c : Char} {cs : List Char} {fault : LexicalFault}
    (h : (scan c cs).1 = .error fault) :
    fault = .unexpectedCharacter c ∧ (scan c cs).2 = 1 ∨ fault.quoted? = none ∧
    (scan c cs).2 = (c :: cs).length := by
  have hdelimited {make : String → Lexeme} {unclosed : LexicalFault} {enclosure : Enclosure}
    {opener : Nat}
      {text : List Char} (hunclosed : unclosed.quoted? = none)
      (h : (scanDelimited make unclosed enclosure opener text).1 = .error fault) :
      fault.quoted? = none ∧
        (scanDelimited make unclosed enclosure opener text).2 = text.length := by
    unfold scanDelimited at h ⊢
    split at h
    · cases h
    · exact ⟨Except.error.inj h ▸ hunclosed, rfl⟩
  unfold scan at h ⊢
  dsimp only at h ⊢
  split at h
  · cases h
  rw [if_neg ‹_›]
  split at h
  · rw [if_pos ‹_›]
    exact .inr (hdelimited rfl h)
  rw [if_neg ‹_›]
  split at h
  · rw [if_pos ‹_›]
    exact .inr (hdelimited rfl h)
  rw [if_neg ‹_›]
  split at h
  · rw [if_pos ‹_›]
    exact .inr (hdelimited rfl h)
  rw [if_neg ‹_›]
  split at h
  · cases h
  rw [if_neg ‹_›]
  split at h
  · cases h
  rw [if_neg ‹_›]
  split at h
  · rw [if_pos ‹_›]
    exact .inr (hdelimited rfl h)
  rw [if_neg ‹_›]
  split at h
  · cases h
  · exact .inl ⟨(Except.error.inj h).symm, rfl⟩

private theorem scan_possible {c : Char} {cs : List Char} {fault : LexicalFault}
    (h : (scan c cs).1 = .error fault) :
    fault.Possible := by
  rcases scan_fault h with ⟨rfl, -⟩ | ⟨hnone, -⟩
  · trivial
  · exact LexicalFault.possible_of_quoted hnone

private theorem scan_quoted {c : Char} {cs : List Char} {fault : LexicalFault}
    (h : (scan c cs).1 = .error fault) {quoted : String} (hq : fault.quoted? = some quoted) :
    quoted.toList = (c :: cs).take (scan c cs).2 := by
  rcases scan_fault h with ⟨rfl, hlength⟩ | ⟨hnone, -⟩
  · cases hq
    rw [hlength, List.take_succ_cons, List.take_zero, Char.toString, String.toList_singleton]
  · cases hnone.symm.trans hq

end Lexeme

/-- The errors of a text lie over pieces of it. -/
theorem Lexer.tokenize_errors_at (cs : List Char) (offset : Nat) : ∀ e ∈ (tokenize ⟨cs, offset⟩).2,
    e.At cs offset := by
  induction cs using text_induction generalizing offset with
  | nil =>
    rw [tokenize_nil]
    exact fun _ he => absurd he List.not_mem_nil
  | blank c cs hc ih =>
    rw [tokenize_blank hc]
    exact fun e he => LexicalError.At.behind [c] (ih _ e he)
  | scan c cs hc ih =>
    rw [tokenize_scan hc]
    intro e he
    rcases List.mem_append.1 he with he | he
    · unfold found at he
      split at he
      · cases he
      · rename_i fault hfault
        rw [List.mem_singleton.1 he]
        exact ⟨Lexeme.scan_possible hfault, [], (c :: cs).take (Lexeme.scan c cs).2,
          (c :: cs).drop (Lexeme.scan c cs).2, (List.take_append_drop _ _).symm, rfl,
          fun quoted hq => Lexeme.scan_quoted hfault hq⟩
    · have hbehind := LexicalError.At.behind _ (ih _ e he)
      rwa [List.take_append_drop] at hbehind

theorem Numeral.integer_error_at {raw : String} {span : Span} {e : LexicalError} {v : Int}
    (hv : Spells raw.toList v) (h : integer raw span = .error e)
    (hspan : span.stop = span.start + Text.byteSize raw.toList) : e.At raw.toList span.start := by
  obtain ⟨rfl, hnone⟩ := integer_eq_error.mp h
  exact .whole hspan ⟨rfl, rfl, v, hv, fun hfits => hnone v ⟨hv, hfits⟩⟩ fun quoted hq => by
    rw [← Option.some.inj hq]

namespace Quoted

/-- The element is read from the text `front` at `offset`: embedded code stands between the braces
that set it apart. -/
private def Element.From (front : List Char) (offset : Nat) (element : Element) : Prop :=
  ∀ inner start, element = .code inner start → front = ['$', '{'] ++ inner.toList ++ ['}'] ∧
    start = offset + 2

private theorem elementsWithin_step (unclosed : Option LexicalError) (bound offset : Nat) (c : Char)
    (cs : List Char) :
    (∃ e, elementsWithin unclosed (bound + 1) offset (c :: cs) = .error e ∧
      (unclosed = some e ∨ e.At (c :: cs) offset)) ∨
    ∃ element front rest, c :: cs = front ++ rest ∧ element.From front offset ∧
      elementsWithin unclosed (bound + 1) offset (c :: cs) =
        (elementsWithin unclosed bound (offset + Text.byteSize front) rest).map (element :: ·) := by
  generalize hread : elementsWithin unclosed (bound + 1) offset (c :: cs) = read
  unfold elementsWithin at hread
  split at hread
  · split at hread
    · rename_i rule n _
      refine .inl ⟨_, hread.symm, .inr ⟨trivial, [], '\\' :: cs.take n, cs.drop n, ?_, ?_, ?_⟩⟩
      · rw [List.nil_append, List.cons_append, List.take_append_drop]
      · rw [Text.byteSize_nil, Text.byteSize_cons, Nat.add_zero, Nat.add_assoc]
        rfl
      · intro quoted hq
        rw [← Option.some.inj hq, String.toList_ofList]
    · rename_i escaped n _
      refine .inr ⟨.ofEscaped escaped, '\\' :: cs.take n, cs.drop n, ?_, ?_, ?_⟩
      · rw [List.cons_append, List.take_append_drop]
      · intro inner start hcode
        cases escaped <;> cases hcode
      · rw [Text.byteSize_cons, ← Nat.add_assoc]
        exact hread.symm
  · rename_i cs _
    split at hread
    · exact .inl ⟨_, hread.symm, .inl rfl⟩
    · rename_i n hn
      refine .inr ⟨.code (String.ofList (cs.take (n - 1))) (offset + 2), '$' :: '{' :: cs.take n,
        cs.drop n, ?_, ?_, ?_⟩
      · rw [List.cons_append, List.cons_append, List.take_append_drop]
      · rintro inner start ⟨⟩
        obtain ⟨code, hcode⟩ := Enclosure.closing?_closer hn rfl
        have hcut : cs.take (n - 1) = code := by
          have hlength := congrArg List.length hcode
          rw [List.length_take, Nat.min_eq_left (Enclosure.closing?_le hn),
            List.length_append] at hlength
          rw [← Nat.min_eq_left (Nat.sub_le n 1), ← List.take_take, hcode, hlength]
          exact List.take_left
        rw [String.toList_ofList, hcut, hcode]
        exact ⟨rfl, rfl⟩
      · rw [Text.byteSize_cons, Text.byteSize_cons, ← Nat.add_assoc, ← Nat.add_assoc]
        exact hread.symm
  · refine .inr ⟨.char c, [c], cs, rfl, ?_, hread.symm⟩
    intro inner start hcode
    cases hcode

private theorem elementsWithin_error_at {unclosed : Option LexicalError} {bound offset : Nat}
    {cs : List Char} {e : LexicalError} (h : elementsWithin unclosed bound offset cs = .error e) :
    unclosed = some e ∨ e.At cs offset := by
  induction bound generalizing offset cs with
  | zero => cases h
  | succ bound ih =>
    cases cs with
    | nil => cases h
    | cons c cs =>
      rcases elementsWithin_step unclosed bound offset c cs with ⟨d, hd, hat⟩ | ⟨element, front,
        rest, hcs, -, hrest⟩
      · rw [hd] at h
        rwa [← Except.error.inj h]
      · rw [hrest] at h
        rw [hcs]
        exact (ih (error_of_map h)).imp_right (.behind front)

private theorem elementsWithin_code_from {unclosed : Option LexicalError} {bound offset : Nat}
    {cs : List Char} {es : List Element} (h : elementsWithin unclosed bound offset cs = .ok es)
    {inner : String} {start : Nat} (hc : .code inner start ∈ es) :
    ∃ front behind, cs = front ++ (['$', '{'] ++ inner.toList ++ ['}']) ++ behind ∧
      start = offset + Text.byteSize front + 2 := by
  induction bound generalizing offset cs es with
  | zero =>
    cases h
    cases hc
  | succ bound ih =>
    cases cs with
    | nil =>
      cases h
      cases hc
    | cons c cs =>
      rcases elementsWithin_step unclosed bound offset c cs with ⟨d, hd, -⟩ | ⟨element, front, rest,
        hcs, hfrom, hrest⟩
      · rw [hd] at h
        cases h
      · rw [hrest] at h
        obtain ⟨es, hes, rfl⟩ := ok_of_map h
        rw [hcs]
        rcases List.mem_cons.1 hc with rfl | hc
        · obtain ⟨rfl, rfl⟩ := hfrom inner start rfl
          exact ⟨[], rest, rfl, rfl⟩
        · obtain ⟨left, right, rfl, rfl⟩ := ih hes hc
          refine ⟨front ++ left, right, by simp only [List.append_assoc], ?_⟩
          rw [Text.byteSize_append, Nat.add_assoc offset]

variable {raw : String} {span : Span} {e : LexicalError}

private theorem unterminated_at {quote : Char}
    (hspan : span.stop = span.start + Text.byteSize raw.toList) :
    (unterminated quote span).At raw.toList span.start :=
  .whole hspan trivial fun quoted hq => absurd hq (Option.not_mem_none quoted)

private theorem body_error_at {quote : Char} {cs body : List Char} {unclosed : Option LexicalError}
    {offset : Nat} (hbody : unquote? quote cs = some body)
    (hunclosed : ∀ d ∈ unclosed, d.At cs offset)
    (h : elements unclosed (offset + quote.utf8Size) body = .error e) : e.At cs offset := by
  rcases elementsWithin_error_at h with hunclosed' | hat
  · exact hunclosed e hunclosed'
  · rw [unquote?_eq_some hbody]
    exact hat.inside [quote] [quote]

theorem split_error_at (h : split raw span = .error e)
    (hspan : span.stop = span.start + Text.byteSize raw.toList) :
    e.At raw.toList span.start := by
  unfold split at h
  split at h
  · rw [← Except.error.inj h]
    exact unterminated_at hspan
  · rw [splitFrom_nil] at h
    refine body_error_at ‹_› ?_ (error_of_map h)
    rintro d ⟨⟩
    exact unterminated_at hspan

theorem decodeSimple_error_at (h : decodeSimple raw span = .error e)
    (hspan : span.stop = span.start + Text.byteSize raw.toList) : e.At raw.toList span.start := by
  unfold decodeSimple at h
  split at h
  · rw [← Except.error.inj h]
    exact unterminated_at hspan
  · have helements := error_of_map (unescape_eq _ _ ▸ h)
    rw [String.toList_ofList] at helements
    exact body_error_at ‹unquote? '\'' _ =
      _› (fun d hd => absurd hd (Option.not_mem_none d)) helements

theorem decodeBytes_error_at (h : decodeBytes raw span = .error e)
    (hspan : span.stop = span.start + Text.byteSize raw.toList) : e.At raw.toList span.start := by
  unfold decodeBytes at h
  split at h
  · split at h
    · rw [← Except.error.inj h]
      exact unterminated_at hspan
    · rename_i quoted hraw _ body hbody
      rw [bytesFrom_nil] at h
      rw [hraw]
      exact LexicalError.At.behind ['b']
        (body_error_at hbody (fun d hd => absurd hd (Option.not_mem_none d)) (error_of_map h))
  · rw [← Except.error.inj h]
    exact unterminated_at hspan

theorem split_code_from {segments : List Segment} {inner : String} {start : Nat}
    (h : split raw span = .ok segments) (hc : .code inner start ∈ segments) :
    ∃ front behind, raw.toList = front ++ (['$', '{'] ++ inner.toList ++ ['}']) ++ behind ∧
      start = span.start + Text.byteSize front + 2 := by
  unfold split at h
  split at h
  · cases h
  · rename_i body hbody
    rw [splitFrom_nil] at h
    obtain ⟨es, hes, rfl⟩ := ok_of_map h
    have hcode : (inner, start) ∈ es.filterMap Element.code? := by
      rw [← segments_code? []]
      exact List.mem_filterMap.2 ⟨_, hc, rfl⟩
    obtain ⟨element, helement, hsome⟩ := List.mem_filterMap.1 hcode
    cases element with
    | char c => cases hsome
    | byte b => cases hsome
    | code inner start =>
      cases hsome
      obtain ⟨front, behind, rfl, rfl⟩ := elementsWithin_code_from hes helement
      refine ⟨'"' :: front, behind ++ ['"'], ?_, ?_⟩
      · simp only [unquote?_eq_some hbody, List.cons_append, List.append_assoc]
      · rw [Text.byteSize_cons, ← Nat.add_assoc]
        rfl

end Quoted

theorem Excerpt.braced {source text : String} {offset : Nat} (h : Excerpt source text offset)
    {t : Token} {raw : String} {segments : List Quoted.Segment} {inner : String} {start : Nat}
    (ht : t.At text.toList offset) (hl : t.lexeme = .string .interpolated raw)
    (hs : Quoted.split raw t.span = .ok segments) (hc : .code inner start ∈ segments) :
    Span.Over source.toList ⟨start - 2, start + Text.byteSize inner.toList + 1⟩ := by
  obtain ⟨front, behind, hraw, rfl⟩ := Quoted.split_code_from hs hc
  obtain ⟨left, right, htext, hspan⟩ := ht.string hl
  have hpiece : text.toList = (left ++ front) ++ (['$', '{'] ++ inner.toList ++ ['}']) ++
      (behind ++ right) := by
    simp only [htext, hraw, List.append_assoc]
  obtain ⟨left', right', hsource, hoffset⟩ := h.piece hpiece
  have hover := Span.Over.piece hsource
  have hopen : Text.byteSize ['$', '{'] = 2 := by decide
  have hclose : Text.byteSize ['}'] = 1 := by decide
  rw [Text.byteSize_append] at hoffset
  have hfirst : t.span.start = offset + Text.byteSize left := by rw [hspan]
  have hstart : t.span.start + Text.byteSize front + 2 - 2 = Text.byteSize left' := by omega
  have hstop : t.span.start + Text.byteSize front + 2 + Text.byteSize inner.toList + 1 =
      Text.byteSize left' + Text.byteSize (['$', '{'] ++ inner.toList ++ ['}']) := by
    rw [Text.byteSize_append, Text.byteSize_append, hopen, hclose]
    omega
  rwa [hstart, hstop]

end ApiScript
