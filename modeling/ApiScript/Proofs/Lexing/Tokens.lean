import ApiScript.Proofs.Spelling.Written

set_option autoImplicit false
set_option relaxedAutoImplicit false

/-!
The tokens of a text: they stand in order, each over a nonempty piece of the text, and a lexeme that
is not invalid is spelled as its piece.
-/

namespace ApiScript

namespace Text

@[simp] theorem byteSize_nil : byteSize [] = 0 := rfl

@[simp] theorem byteSize_cons (c : Char) (cs : List Char) :
    byteSize (c :: cs) = c.utf8Size + byteSize cs := rfl

@[simp] theorem byteSize_append (cs ds : List Char) :
    byteSize (cs ++ ds) = byteSize cs + byteSize ds := by
  induction cs with
  | nil => simp
  | cons c cs ih => simp only [List.cons_append, byteSize_cons, ih, Nat.add_assoc]

theorem byteSize_pos {cs : List Char} (h : cs ≠ []) : 0 < byteSize cs := by
  obtain ⟨c, cs, rfl⟩ := List.exists_cons_of_ne_nil h
  have := c.utf8Size_pos
  rw [byteSize_cons]
  omega

theorem utf8ByteSize_ofList (cs : List Char) : (String.ofList cs).utf8ByteSize = byteSize cs := by
  induction cs with
  | nil => rfl
  | cons c cs ih => simpa using ih

theorem utf8ByteSize_eq (s : String) : s.utf8ByteSize = byteSize s.toList := by
  rw [← utf8ByteSize_ofList, String.ofList_toList]

end Text

namespace Lexeme

private theorem radixLength?_pos {cs : List Char} {n : Nat} (h : radixLength? cs = some n) :
    0 < n := by
  unfold radixLength? at h
  split at h
  · obtain ⟨digit, _, hn⟩ := Option.bind_eq_some_iff.1 h
    split at hn
    · cases hn
    · cases hn
      omega
  · cases h

private theorem numberLength_pos {c : Char} {cs : List Char} (h : c.isDigit = true) :
    0 < (numberLength (c :: cs)).2 := by
  have hwhole : 0 < runLength Char.isDigit (c :: cs) := by
    simp only [runLength, List.takeWhile_cons, h, ↓reduceIte, List.length_cons]
    omega
  unfold numberLength
  split
  · rename_i n hn
    exact radixLength?_pos hn
  · dsimp only
    split <;> · dsimp only; omega

private theorem scanDelimited_pos {make : String → Lexeme} {fault : LexicalFault}
    {enclosure : Enclosure} {opener : Nat} {c : Char} {cs : List Char} (h : 0 < opener) :
    0 < (scanDelimited make fault enclosure opener (c :: cs)).2 := by
  unfold scanDelimited
  split
  · dsimp only
    omega
  · exact Nat.succ_pos _

private theorem symbol_length_pos (s : Symbol) : 0 < s.spelling.length := by cases s <;> decide

theorem isWordPart_of_isWordStart {c : Char} (h : isWordStart c = true) : isWordPart c = true := by
  simp only [isWordStart, isWordPart, Bool.or_eq_true, Char.isAlphanum] at h ⊢
  exact h.imp_left .inl

theorem scan_length_pos (c : Char) (cs : List Char) : 0 < (scan c cs).2 := by
  unfold scan
  dsimp only
  split
  · rename_i h
    exact numberLength_pos h
  split
  · exact scanDelimited_pos Nat.one_pos
  split
  · exact scanDelimited_pos Nat.one_pos
  split
  · exact scanDelimited_pos Nat.two_pos
  split
  · rename_i h
    simp only [List.takeWhile_cons, isWordPart_of_isWordStart h, ↓reduceIte, List.length_cons]
    omega
  split
  · rename_i h
    simp [h.1]
  split
  · exact scanDelimited_pos Nat.two_pos
  split
  · exact symbol_length_pos _
  · exact Nat.one_pos

theorem ofWord_spelling (word : String) : (ofWord word).spelling = word := by
  unfold ofWord
  split
  · rename_i k hk
    simpa [Lexeme.spelling] using List.find?_some hk
  · rfl

private theorem ofWord_genuine (word : String) : (ofWord word).Genuine := by
  cases h : ofWord word with
  | identifier text =>
    have htext := ofWord_spelling word
    rw [h] at htext
    simp only [Genuine]
    rw [show text = word from htext, h, show text = word from htext]
  | number kind text =>
    unfold ofWord at h
    split at h <;> cases h
  | _ => trivial

theorem take_takeWhile_length {α : Type} (p : α → Bool) (xs : List α) :
    xs.take (xs.takeWhile p).length = xs.takeWhile p := by
  induction xs with
  | nil => rfl
  | cons x xs ih =>
    by_cases h : p x = true
    · simp [h, ih]
    · simp [h]

private theorem symbol?_spelling {cs : List Char} {s : Symbol} (h : symbol? cs = some s) :
    cs.take s.spelling.length = s.spelling.toList := by
  have hprefix : s.spelling.toList <+: cs := by simpa using List.find?_some h
  rw [List.prefix_iff_eq_take, String.length_toList] at hprefix
  exact hprefix.symm

private inductive Scans : List Char → Lexeme → Nat → Prop
  | number {c : Char} {cs : List Char} (h : c.isDigit = true) :
    Scans (c :: cs)
      (.number (numberLength (c :: cs)).1
        (String.ofList ((c :: cs).take (numberLength (c :: cs)).2)))
      (numberLength (c :: cs)).2
  | string {kind : StringClass} {cs : List Char} {n : Nat} :
    Scans cs (.string kind (String.ofList (cs.take n))) n
  | comment {kind : CommentClass} {cs : List Char} {n : Nat} :
    Scans cs (.comment kind (String.ofList (cs.take n))) n
  | word {cs : List Char} :
    Scans cs (ofWord (String.ofList (cs.takeWhile isWordPart))) (cs.takeWhile isWordPart).length
  | symbol {cs : List Char} {s : Symbol} (h : symbol? cs = some s) :
    Scans cs (.symbol s) s.spelling.length

theorem scanDelimited_ok {make : String → Lexeme} {fault : LexicalFault} {enclosure : Enclosure}
    {opener : Nat} {cs : List Char} {l : Lexeme} {n : Nat}
    (h : scanDelimited make fault enclosure opener cs = (.ok l, n)) :
    l = make (String.ofList (cs.take n)) := by
  unfold scanDelimited at h
  split at h
  · obtain ⟨hl, rfl⟩ := Prod.mk.inj h
    exact (Except.ok.inj hl).symm
  · cases (Prod.mk.inj h).1

private theorem scan_ok {c : Char} {cs : List Char} {l : Lexeme} {n : Nat}
    (h : scan c cs = (.ok l, n)) :
    Scans (c :: cs) l n := by
  unfold scan at h
  dsimp only at h
  split at h
  · rename_i hc
    obtain ⟨hl, rfl⟩ := Prod.mk.inj h
    rw [← Except.ok.inj hl]
    exact .number hc
  split at h
  · rw [scanDelimited_ok h]
    exact .string
  split at h
  · rw [scanDelimited_ok h]
    exact .string
  split at h
  · rw [scanDelimited_ok h]
    exact .string
  split at h
  · obtain ⟨hl, rfl⟩ := Prod.mk.inj h
    rw [← Except.ok.inj hl]
    exact .word
  split at h
  · obtain ⟨hl, rfl⟩ := Prod.mk.inj h
    have hline : Scans (c :: cs) (.comment .line (String.ofList ((c :: cs).take
        ((c :: cs).takeWhile (· != '\n')).length))) ((c :: cs).takeWhile (· !=
          '\n')).length := .comment
    rw [take_takeWhile_length] at hline
    rw [← Except.ok.inj hl]
    exact hline
  split at h
  · rw [scanDelimited_ok h]
    exact .comment
  split at h
  · rename_i s hs
    obtain ⟨hl, rfl⟩ := Prod.mk.inj h
    rw [← Except.ok.inj hl]
    exact .symbol hs
  · cases (Prod.mk.inj h).1

private theorem Scans.spelling {cs : List Char} {l : Lexeme} {n : Nat} (h : Scans cs l n) :
    l.spelling = String.ofList (cs.take n) := by
  cases h with
  | number | string | comment => rfl
  | word => rw [take_takeWhile_length, ofWord_spelling]
  | symbol h => rw [symbol?_spelling h, String.ofList_toList, Lexeme.spelling]

private theorem ofWord_valid (word : String) : ofWord word ≠ .invalid := by
  unfold ofWord
  split <;> exact nofun

private theorem Scans.valid {cs : List Char} {l : Lexeme} {n : Nat} (h : Scans cs l n) :
    l ≠ .invalid := by
  cases h with
  | word => exact ofWord_valid _
  | number | string | comment | symbol => exact nofun

private theorem Scans.genuine {cs : List Char} {l : Lexeme} {n : Nat} (h : Scans cs l n) :
    l.Genuine := by
  cases h with
  | @number c cs h =>
    obtain ⟨n, hn⟩ :=
      Nat.exists_eq_succ_of_ne_zero
        (Nat.ne_of_gt (numberLength_pos h : 0 < (numberLength (c :: cs)).2))
    exact ⟨c, cs.take n, by rw [hn, List.take_succ_cons, String.toList_ofList], h⟩
  | word => exact ofWord_genuine _
  | string | comment | symbol => trivial

end Lexeme

/-- The token lies over a nonempty piece of a text that begins at `offset`, and says what is written
there unless it is invalid. -/
def Token.At (cs : List Char) (offset : Nat) (t : Token) : Prop :=
  ∃ front mid behind, cs = front ++ mid ++ behind ∧ mid ≠ [] ∧
    t.span = ⟨offset + Text.byteSize front, offset + Text.byteSize front + Text.byteSize mid⟩ ∧
    (t.lexeme = .invalid ∨ t.lexeme.spelling = String.ofList mid) ∧ t.lexeme.Genuine

private theorem Token.At.behind {cs ds : List Char} {offset : Nat} {t : Token}
    (h : t.At ds (offset + Text.byteSize cs)) : t.At (cs ++ ds) offset := by
  obtain ⟨front, mid, behind, rfl, hmid, hspan, hlexeme⟩ := h
  refine ⟨cs ++ front, mid, behind, by simp, hmid, ?_, hlexeme⟩
  rw [hspan, Text.byteSize_append, Nat.add_assoc offset]

namespace Lexer

def itemSpan : Except LexicalError Token → Span
  | .ok t => t.span
  | .error e => e.span

def itemToken : Except LexicalError Token → Token
  | .ok t => t
  | .error e => ⟨.invalid, e.span⟩

def itemErrors : Except LexicalError Token → List LexicalError
  | .ok _ => []
  | .error e => [e]

/-- What the scan at the head of a text finds, with its span. -/
def found (offset : Nat) (c : Char) (cs : List Char) : Except LexicalError Token :=
  let span := ⟨offset, offset + Text.byteSize ((c :: cs).take (Lexeme.scan c cs).2)⟩
  match (Lexeme.scan c cs).1 with
  | .ok l => .ok ⟨l, span⟩
  | .error fault => .error ⟨fault, span⟩

theorem next?_eq_none {l : Lexer} : l.next? = none ↔ l.rest.dropWhile Lexeme.isBlank = [] := by
  unfold next? scan?
  cases l.rest.dropWhile Lexeme.isBlank with
  | nil => simp
  | cons c cs =>
    dsimp only
    cases (Lexeme.scan c cs).1 <;> simp

theorem next?_eq_some {l l' : Lexer} {item : Except LexicalError Token}
    (h : l.next? = some (item, l')) :
    ∃ c cs, l.rest.dropWhile Lexeme.isBlank = c :: cs ∧
      item = found (l.offset + Text.byteSize (l.rest.takeWhile Lexeme.isBlank)) c cs ∧
      l' = ⟨(c :: cs).drop (Lexeme.scan c cs).2,
        l.offset + Text.byteSize (l.rest.takeWhile Lexeme.isBlank) +
          Text.byteSize ((c :: cs).take (Lexeme.scan c cs).2)⟩ := by
  unfold next? scan? at h
  cases hrest : l.rest.dropWhile Lexeme.isBlank with
  | nil =>
    rw [hrest] at h
    cases h
  | cons c cs =>
    simp only [hrest] at h
    refine ⟨c, cs, rfl, ?_⟩
    unfold found
    cases hscan : (Lexeme.scan c cs).1 <;>
    · rw [hscan] at h
      obtain ⟨rfl, rfl⟩ := Prod.mk.inj (Option.some.inj h)
      exact ⟨rfl, rfl⟩

theorem next?_some {l l' : Lexer} {item : Except LexicalError Token}
    (h : l.next? = some (item, l')) :
    ∃ blank mid, l.rest = blank ++ mid ++ l'.rest ∧ mid ≠ [] ∧ blank.all Lexeme.isBlank = true ∧
      (itemToken item).span =
        ⟨l.offset + Text.byteSize blank, l.offset + Text.byteSize blank + Text.byteSize mid⟩ ∧
      l'.offset = l.offset + Text.byteSize blank + Text.byteSize mid ∧
      ((itemToken item).lexeme = .invalid ∨ (itemToken item).lexeme.spelling = String.ofList mid) ∧
      (itemToken item).lexeme.Genuine := by
  obtain ⟨c, cs, hrest, rfl, rfl⟩ := next?_eq_some h
  obtain ⟨n, hn⟩ := Nat.exists_eq_succ_of_ne_zero (Nat.ne_of_gt (Lexeme.scan_length_pos c cs))
  refine ⟨l.rest.takeWhile Lexeme.isBlank, (c :: cs).take (Lexeme.scan c cs).2, ?_, ?_, ?_,
    ?_, rfl, ?_⟩
  · rw [List.append_assoc, List.take_append_drop, ← hrest, List.takeWhile_append_dropWhile]
  · simp [hn]
  · simp
  all_goals
    unfold found
    cases hscan : (Lexeme.scan c cs).1 with
    | ok lexeme =>
      have hs := Lexeme.scan_ok (Prod.ext hscan rfl :
        Lexeme.scan c cs = (.ok lexeme, (Lexeme.scan c cs).2))
      first
      | rfl
      | exact ⟨.inr hs.spelling, hs.genuine⟩
    | error fault =>
      first
      | rfl
      | exact ⟨.inl rfl, trivial⟩

theorem steps_of_none {bound : Nat} {l : Lexer} (h : l.next? = none) :
    steps bound l = ([], []) := by
  have hscan : l.scan? = none := by
    rw [scan?, next?_eq_none.1 h]
  cases bound with
  | zero => rfl
  | succ bound => rw [steps, hscan]

/-- A step of reading all that is left is a single step: it keeps the token, and an error as well
as an invalid token in its place. -/
theorem steps_succ {bound : Nat} {l l' : Lexer} {item : Except LexicalError Token}
    (h : l.next? = some (item, l')) :
    steps (bound + 1) l =
      (itemToken item :: (steps bound l').1, itemErrors item ++ (steps bound l').2) := by
  unfold next? at h
  rw [steps]
  cases hscan : l.scan? with
  | none =>
    rw [hscan] at h
    cases h
  | some r =>
    obtain ⟨_ | _, span, rest⟩ := r <;>
    · rw [hscan] at h
      obtain ⟨rfl, rfl⟩ := Prod.mk.inj (Option.some.inj h)
      rfl

/-- The tokens of a text stand in order over pieces of it. -/
theorem steps_at (bound : Nat) (l : Lexer) :
    (∀ t ∈ (steps bound l).1, t.At l.rest l.offset) ∧
      (steps bound l).1.Pairwise fun t u => t.span.stop ≤ u.span.start := by
  induction bound generalizing l with
  | zero => simp [steps]
  | succ bound ih =>
    cases h : l.next? with
    | none => simp [steps_of_none h]
    | some r =>
      obtain ⟨item, l'⟩ := r
      obtain ⟨blank, mid, hrest, hmid, _, hspan, hoffset, hlexeme, hgenuine⟩ := next?_some h
      obtain ⟨hat, hordered⟩ := ih l'
      rw [steps_succ h]
      have hbehind : ∀ t ∈ (steps bound l').1, t.At l.rest l.offset := by
        intro t ht
        rw [hrest]
        refine Token.At.behind ?_
        rw [Text.byteSize_append, ← Nat.add_assoc, ← hoffset]
        exact hat t ht
      constructor
      · intro t ht
        rcases List.mem_cons.1 ht with rfl | ht
        · exact ⟨blank, mid, l'.rest, hrest, hmid, hspan, hlexeme, hgenuine⟩
        · exact hbehind t ht
      · refine List.pairwise_cons.2 ⟨fun t ht => ?_, hordered⟩
        obtain ⟨front, mid', behind, _, _, hspan', _⟩ := hat t ht
        rw [hspan, hspan', hoffset]
        exact Nat.le_add_right _ _

theorem next?_valid {l l' : Lexer} {t : Token} (h : l.next? = some (.ok t, l')) :
    t.lexeme ≠ .invalid := by
  obtain ⟨c, cs, -, hitem, -⟩ := next?_eq_some h
  unfold found at hitem
  cases hscan : (Lexeme.scan c cs).1 with
  | error fault =>
    rw [hscan] at hitem
    cases hitem
  | ok lexeme =>
    rw [hscan] at hitem
    rw [Except.ok.inj hitem]
    exact (Lexeme.scan_ok (Prod.ext hscan rfl :
      Lexeme.scan c cs = (.ok lexeme, (Lexeme.scan c cs).2))).valid

private theorem steps_valid {bound : Nat} {l : Lexer} (h : (steps bound l).2 = []) :
    ∀ t ∈ (steps bound l).1, t.lexeme ≠ .invalid := by
  induction bound generalizing l with
  | zero => simp [steps]
  | succ bound ih =>
    cases hnext : l.next? with
    | none => simp [steps_of_none hnext]
    | some r =>
      obtain ⟨item, l'⟩ := r
      rw [steps_succ hnext] at h ⊢
      cases item with
      | error e => cases h
      | ok t =>
        intro u hu
        rcases List.mem_cons.1 hu with rfl | hu
        · exact next?_valid hnext
        · exact ih h u hu

end Lexer

namespace Grammar

theorem State.ofString_after {source : String} {offset : Nat}
    (h : (State.ofString source offset).log = []) :
    (State.ofString source offset).after = (Lexer.ofString source offset).tokenizeFiltered.1 := by
  have hvalid : ∀ t ∈ (Lexer.ofString source offset).tokenize.1, t.lexeme ≠ .invalid :=
    Lexer.steps_valid (List.map_eq_nil_iff.1 h)
  exact List.filter_eq_self.2 fun t ht => by simpa using hvalid t (List.mem_filter.1 ht).1

theorem State.ofString_at (source : String) (offset : Nat) :
    (∀ t ∈ (State.ofString source offset).after, t.At source.toList offset) ∧
      (State.ofString source offset).after.Pairwise fun t u => t.span.stop ≤ u.span.start := by
  obtain ⟨hat, hordered⟩ := Lexer.steps_at source.toList.length (Lexer.ofString source offset)
  exact ⟨fun t ht => hat t (List.mem_filter.1 (List.mem_filter.1 ht).1).1,
    (hordered.filter _).filter _⟩

theorem State.sound_ofString (source : String) (offset : Nat) :
    (State.ofString source offset).Sound := by
  obtain ⟨hat, hordered⟩ := State.ofString_at source offset
  have htokens : (State.ofString source offset).tokens = (State.ofString source offset).after := rfl
  constructor
  · exact Nat.le_add_right _ _
  · rwa [htokens]
  all_goals
    rw [htokens]
    intro t ht
    obtain ⟨front, mid, behind, hsource, hmid, hspan, _, hgenuine⟩ := hat t ht
  · have := Text.byteSize_pos hmid
    rw [hspan]
    dsimp only
    omega
  · have hsize :
        (State.ofString source offset).area = ⟨offset, offset + Text.byteSize source.toList⟩ := by
      rw [← Text.utf8ByteSize_eq]
      rfl
    rw [hspan, hsize, hsource]
    simp only [Text.byteSize_append]
    omega
  · exact hgenuine

end Grammar

end ApiScript
