import ApiScript.Quoted.Decode

set_option autoImplicit false
set_option relaxedAutoImplicit false

/-!
The elements of a quoted body: characters, bytes, and embedded code where the quotes allow it. Each
decoder goes through a body in a loop of its own, and its answer is made of the same elements in its
own way.
-/

namespace ApiScript.Quoted

/-- The smallest parts of a quoted body; `code` is the text between the braces and its offset. -/
inductive Element
  | char (char : Char)
  | byte (byte : UInt8)
  | code (source : String) (offset : Nat)
  deriving DecidableEq

namespace Element

def ofEscaped : Escaped → Element
  | .char c => char c
  | .byte b => byte b

def char? : Element → Option Char
  | char c => some c
  | byte b => some (Char.ofNat b.toNat)
  | code _ _ => none

def bytes : Element → List UInt8
  | char c => String.utf8EncodeChar c
  | byte b => [b]
  | code _ _ => []

end Element

/-- At most `bound` elements of a body that starts at `offset`. Where `unclosed` is given, a dollar
sign and a brace open embedded code, and it is the error of code that does not end. -/
def elementsWithin (unclosed : Option LexicalError) :
    Nat → Nat → List Char → Except LexicalError (List Element)
  | 0, _, _ => .ok []
  | _ + 1, _, [] => .ok []
  | bound + 1, offset, c :: cs =>
    match c, cs, unclosed with
    | '\\', cs, _ =>
      match escape cs with
      | .error (rule, n) =>
        .error ⟨.invalidEscape (String.ofList ('\\' :: cs.take n)) rule,
          ⟨offset, offset + 1 + Text.byteSize (cs.take n)⟩⟩
      | .ok (escaped, n) =>
        (elementsWithin unclosed bound (offset + 1 + Text.byteSize (cs.take n)) (cs.drop n)).map
          (.ofEscaped escaped :: ·)
    | '$', '{' :: cs, some error =>
      match Enclosure.closing? [.code 0] cs with
      | none => .error error
      | some n =>
        (elementsWithin unclosed bound (offset + 2 + Text.byteSize (cs.take n)) (cs.drop n)).map
          (.code (String.ofList (cs.take (n - 1))) (offset + 2) :: ·)
    | c, cs, _ => (elementsWithin unclosed bound (offset + c.utf8Size) cs).map (.char c :: ·)

def elements (unclosed : Option LexicalError) (offset : Nat) (body : List Char) :
    Except LexicalError (List Element) :=
  elementsWithin unclosed body.length offset body

def pendingChars (read : List Char) : List Segment :=
  if read.isEmpty then [] else [.text (String.ofList read.reverse)]

/-- Joins neighbouring characters into segments, `read` being the characters in front. -/
def segments (read : List Char) : List Element → List Segment
  | [] => pendingChars read
  | .code source offset :: es => pendingChars read ++ .code source offset :: segments [] es
  | .char c :: es => segments (c :: read) es
  | .byte b :: es => segments (Char.ofNat b.toNat :: read) es

section Elements

variable {unclosed : Option LexicalError} {bound offset : Nat} {c : Char} {cs : List Char}

theorem elementsWithin_escape : elementsWithin unclosed (bound + 1) offset ('\\' :: cs) =
    match escape cs with
    | .error (rule, n) =>
      .error ⟨.invalidEscape (String.ofList ('\\' :: cs.take n)) rule,
        ⟨offset, offset + 1 + Text.byteSize (cs.take n)⟩⟩
    | .ok (escaped, n) =>
      (elementsWithin unclosed bound (offset + 1 + Text.byteSize (cs.take n)) (cs.drop n)).map
        (.ofEscaped escaped :: ·) := by
  cases h : escape cs <;> simp only [elementsWithin, h]

theorem elementsWithin_code (e : LexicalError) :
    elementsWithin (some e) (bound + 1) offset ('$' :: '{' :: cs) =
    match Enclosure.closing? [.code 0] cs with
    | none => .error e
    | some n =>
      (elementsWithin (some e) bound (offset + 2 + Text.byteSize (cs.take n)) (cs.drop n)).map
        (.code (String.ofList (cs.take (n - 1))) (offset + 2) :: ·) := by
  cases h : Enclosure.closing? [.code 0] cs <;> simp only [elementsWithin, h]

theorem elementsWithin_char (hslash : c ≠ '\\')
    (hcode : unclosed ≠ none → c = '$' → cs.head? ≠ some '{') :
    elementsWithin unclosed (bound + 1) offset (c :: cs) =
      (elementsWithin unclosed bound (offset + c.utf8Size) cs).map (.char c :: ·) := by
  rw [elementsWithin]
  · exact fun hc => absurd hc hslash
  · rintro cs error hc rfl rfl
    exact hcode (Option.some_ne_none _) hc rfl

theorem elementsWithin_nil (unclosed : Option LexicalError) (bound offset : Nat) :
    elementsWithin unclosed bound offset [] = .ok [] := by
  cases bound <;> rfl

/-- The bound on the elements is not met before the body ends. -/
theorem elementsWithin_eq_elements {body : List Char} (hbound : body.length ≤ bound) :
    elementsWithin unclosed bound offset body = elements unclosed offset body := by
  suffices hsame : ∀ limit, body.length ≤ limit → elementsWithin unclosed bound offset body =
      elementsWithin unclosed limit offset body from hsame _ (Nat.le_refl _)
  induction bound generalizing offset body with
  | zero =>
    intro limit _
    obtain rfl := List.eq_nil_of_length_eq_zero (Nat.le_zero.1 hbound)
    rw [elementsWithin_nil, elementsWithin_nil]
  | succ bound ih =>
    intro limit hlimit
    cases body with
    | nil => rw [elementsWithin_nil, elementsWithin_nil]
    | cons c cs =>
      obtain ⟨limit, rfl⟩ := Nat.exists_eq_add_one_of_ne_zero (Nat.ne_zero_of_lt hlimit)
      have hfirst : cs.length ≤ bound := Nat.le_of_succ_le_succ hbound
      have hsecond : cs.length ≤ limit := Nat.le_of_succ_le_succ hlimit
      have hdrop (n : Nat) : (cs.drop n).length ≤ cs.length := List.length_drop ▸ Nat.sub_le ..
      unfold elementsWithin
      split
      · split
        · rfl
        · rw [ih (Nat.le_trans (hdrop _) hfirst) limit (Nat.le_trans (hdrop _) hsecond)]
      · split
        · rfl
        · rename_i cs _ _ n _
          have hshorter : (cs.drop n).length ≤ ('{' :: cs).length := by
            rw [List.length_drop, List.length_cons]
            omega
          rw [ih (Nat.le_trans hshorter hfirst) limit (Nat.le_trans hshorter hsecond)]
      · rw [ih hfirst limit hsecond]

private theorem elements_escape : elements unclosed offset ('\\' :: cs) =
    (sequence offset cs).bind fun (escaped, n) =>
      (elements unclosed (offset + 1 + Text.byteSize (cs.take n)) (cs.drop n)).map
        (.ofEscaped escaped :: ·) := by
  rw [elements, List.length_cons, elementsWithin_escape, sequence]
  cases escape cs with
  | error r => rfl
  | ok r =>
    dsimp only [Except.bind]
    rw [elementsWithin_eq_elements (List.length_drop ▸ Nat.sub_le ..)]

private theorem elements_code (e : LexicalError) : elements (some e) offset ('$' :: '{' :: cs) =
    match Enclosure.closing? [.code 0] cs with
    | none => .error e
    | some n =>
      (elements (some e) (offset + 2 + Text.byteSize (cs.take n)) (cs.drop n)).map
        (.code (String.ofList (cs.take (n - 1))) (offset + 2) :: ·) := by
  rw [elements, List.length_cons, elementsWithin_code]
  cases Enclosure.closing? [.code 0] cs with
  | none => rfl
  | some n =>
    have hshorter : (cs.drop n).length ≤ ('{' :: cs).length := by
      rw [List.length_drop, List.length_cons]
      omega
    dsimp only
    rw [elementsWithin_eq_elements hshorter]

theorem elements_char (hslash : c ≠ '\\')
    (hcode : unclosed ≠ none → c = '$' → cs.head? ≠ some '{') :
    elements unclosed offset (c :: cs) =
      (elements unclosed (offset + c.utf8Size) cs).map (.char c :: ·) :=
  elementsWithin_char hslash hcode

end Elements

section Decoders

variable {body : List Char}

private theorem Element.char?_ofEscaped (escaped : Escaped) :
    (ofEscaped escaped).char? = some escaped.toChar := by
  cases escaped <;> rfl

private theorem Element.bytes_ofEscaped (escaped : Escaped) :
    (ofEscaped escaped).bytes = escaped.toBytes := by
  cases escaped <;> rfl

/-- A loop goes on behind an escape sequence as with the other elements. -/
private theorem elements_sequence_map {α : Type} {unclosed : Option LexicalError} {offset : Nat}
    {cs : List Char} {g : List Element → α} {loop : Escaped → Nat → Except LexicalError α}
    (h : ∀ escaped n, loop escaped n =
      (elements unclosed (offset + 1 + Text.byteSize (cs.take n)) (cs.drop n)).map fun es =>
        g (.ofEscaped escaped :: es)) :
    (sequence offset cs).bind (fun r => loop r.1 r.2) =
      (elements unclosed offset ('\\' :: cs)).map g := by
  rw [elements_escape]
  cases sequence offset cs with
  | error e => rfl
  | ok r =>
    dsimp only [Except.bind]
    rw [h]
    cases elements unclosed _ (cs.drop r.2) <;> rfl

private theorem elements_char_map {α : Type} {unclosed : Option LexicalError} {offset : Nat}
    {c : Char} {cs : List Char} (g : List Element → α) (hslash : c ≠ '\\')
    (hcode : unclosed ≠ none → c = '$' → cs.head? ≠ some '{') :
    (elements unclosed offset (c :: cs)).map g =
      (elements unclosed (offset + c.utf8Size) cs).map fun es => g (.char c :: es) := by
  rw [elements_char hslash hcode]
  cases elements unclosed _ cs <;> rfl

private theorem unescapeFrom_eq (text : String) (offset : Nat) (body : List Char) :
    unescapeFrom text offset body = (elements none offset body).map fun es =>
      String.ofList (text.toList ++ es.filterMap Element.char?) := by
  induction text, offset, body using unescapeFrom.induct with
  | case1 text offset => simp [unescapeFrom, elements, elementsWithin, Except.map]
  | case2 text offset cs ih =>
    rw [unescapeFrom]
    refine elements_sequence_map fun escaped n => (ih escaped n).trans ?_
    simp [Element.char?_ofEscaped]
  | case3 text offset c cs hslash ih =>
    rw [unescapeFrom, ih, elements_char_map _ hslash fun hcoded => absurd rfl hcoded]
    · simp [Element.char?]
    · exact hslash

private theorem bytesFrom_eq (bytes : List UInt8) (offset : Nat) (body : List Char) :
    bytesFrom bytes offset body =
      (elements none offset body).map fun es => bytes ++ es.flatMap Element.bytes := by
  induction bytes, offset, body using bytesFrom.induct with
  | case1 bytes offset => simp [bytesFrom, elements, elementsWithin, Except.map]
  | case2 bytes offset cs ih =>
    rw [bytesFrom]
    refine elements_sequence_map fun escaped n => (ih escaped n).trans ?_
    simp [Element.bytes_ofEscaped]
  | case3 bytes offset c cs hslash ih =>
    rw [bytesFrom, ih, elements_char_map _ hslash fun hcoded => absurd rfl hcoded]
    · simp [Element.bytes]
    · exact hslash

private theorem pendingChars_eq (text : String) :
    pendingChars text.toList.reverse = pending text := by
  simp [pendingChars, pending, String.isEmpty_iff]

private theorem segments_ofEscaped (escaped : Escaped) (read : List Char) (es : List Element) :
    segments read (.ofEscaped escaped :: es) = segments (escaped.toChar :: read) es := by
  cases escaped <;> rfl

private theorem splitFrom_eq (e : LexicalError) (done : List Segment) (text : String) (offset : Nat)
    (body : List Char) :
    splitFrom e done text offset body =
      (elements (some e) offset body).map fun es => done ++ segments text.toList.reverse es := by
  induction done, text, offset, body using splitFrom.induct with
  | case1 done text offset =>
    simp [splitFrom, elements, elementsWithin, Except.map, segments, pendingChars_eq]
  | case2 done text offset cs ih =>
    rw [splitFrom]
    refine elements_sequence_map fun escaped n => (ih escaped n).trans ?_
    simp [segments_ofEscaped]
  | case3 done text offset cs hopen =>
    rw [splitFrom, elements_code, hopen]
    rfl
  | case4 done text offset cs n hclosed ih =>
    rw [splitFrom, elements_code, hclosed]
    refine ih.trans ?_
    dsimp only
    cases elements (some e) _ (cs.drop n) with
    | error e => rfl
    | ok es => simp [Except.map, segments, pendingChars_eq]
  | case5 done text offset c cs hslash hcode ih =>
    have hopen (hc : c = '$') : cs.head? ≠ some '{' := by
      intro hhead
      obtain ⟨behind, rfl⟩ := List.head?_eq_some_iff.1 hhead
      exact hcode behind hc rfl
    rw [splitFrom, ih, elements_char_map _ hslash fun _ => hopen]
    · simp [segments]
    · exact hslash
    · exact hcode

theorem unescape_eq (body : String) (offset : Nat) : unescape body offset =
    (elements none offset body.toList).map fun es =>
      String.ofList (es.filterMap Element.char?) := by
  rw [unescape, unescapeFrom_eq]
  rfl

theorem bytesFrom_nil (offset : Nat) (body : List Char) :
    bytesFrom [] offset body = (elements none offset body).map (·.flatMap Element.bytes) := by
  simp only [bytesFrom_eq, List.nil_append]

theorem splitFrom_nil (e : LexicalError) (offset : Nat) (body : List Char) :
    splitFrom e [] "" offset body = (elements (some e) offset body).map (segments []) := by
  simp only [splitFrom_eq, List.nil_append]
  rfl

end Decoders

end ApiScript.Quoted
