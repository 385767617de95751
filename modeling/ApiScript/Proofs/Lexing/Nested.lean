import ApiScript.Proofs.Lexing.Interpolated
import ApiScript.Proofs.Lexing.Octets

set_option autoImplicit false
set_option relaxedAutoImplicit false

/-!
The nested scan byte by byte: a place in the bytes of the text, a stack of what is open there, and
slices of the text to look ahead for the end of a comment or of a string. It finds the closer that
`Enclosure.closing?` finds by characters, since a place inside a character is passed up to the next
one.
-/

namespace ApiScript

open Text Enclosure

/-- What the scan is inside of: a string, or embedded code with the number of open braces in it. -/
inductive Scan
  | text
  | code (opened : Nat)
  deriving DecidableEq

/-- What could stop a scan before it has an answer. -/
inductive Breach
  /-- A slice from inside a character, or from behind the end. -/
  | slice
  /-- A brace that closes where none is open. -/
  | count
  /-- A loop that has not moved. -/
  | endless
  deriving DecidableEq

namespace Scan

def enclosure : Scan → Enclosure
  | text => .text
  | code opened => .code opened

def closer (s : Scan) : Char := s.enclosure.closer

end Scan

namespace Text

def find? (pattern : List Char) : List Char → Option Nat
  | [] => if pattern.isPrefixOf [] then some 0 else none
  | c :: cs =>
    if pattern.isPrefixOf (c :: cs) then some 0 else (find? pattern cs).map (c.utf8Size + ·)

end Text

def scanQuoted (bytes : List UInt8) (quote : Char) (i : Nat) : Option Nat :=
  if h : i < bytes.length then
    if bytes[i] = '\\'.toUInt8 then scanQuoted bytes quote (i + 2)
    else if bytes[i] = quote.toUInt8 then some (i + 1)
    else scanQuoted bytes quote (i + 1)
  else none
termination_by bytes.length - i

namespace Scan

def slice (rest : List Char) (i : Nat) : Except Breach (List Char) :=
  match dropBytes? i rest with
  | some cs => .ok cs
  | none => .error .slice

def roundText (rest : List Char) (below : List Scan) (i : Nat) (byte : UInt8) : List Scan × Nat :=
  if byte = '\\'.toUInt8 then (.text :: below, i + 2)
  else if byte = '"'.toUInt8 then (below, i + 1)
  else if byte = '$'.toUInt8 ∧ (octets rest)[i + 1]? = some '\x7b'.toUInt8 then
    (.code 0 :: .text :: below, i + 1 + 1)
  else (.text :: below, i + 1)

/-- One round in embedded code, at a byte of the text. There is no next one where a string or
comment has no end. -/
def roundCode (rest : List Char) (opened : Nat) (below : List Scan) (i : Nat) (byte : UInt8) :
    Except Breach (Option (List Scan × Nat)) :=
  if opened = 0 ∧ byte = '\x7d'.toUInt8 then .ok (some (below, i + 1))
  else if byte = '\x7b'.toUInt8 then .ok (some (.code (opened + 1) :: below, i + 1))
  else if byte = '\x7d'.toUInt8 then
    if opened = 0 then .error .count else .ok (some (.code (opened - 1) :: below, i + 1))
  else if byte = '"'.toUInt8 then .ok (some (.text :: .code opened :: below, i + 1))
  else if byte = '\''.toUInt8 then
    (slice rest (i + 1)).map fun cs => (scanQuoted (octets cs) '\'' 0).map fun n =>
      (.code opened :: below, i + (1 + n))
  else if byte = '/'.toUInt8 ∧ (octets rest)[i + 1]? = some '/'.toUInt8 then
    (slice rest i).map fun cs =>
      some (.code opened :: below, i + (find? ['\n'] cs).getD ((octets rest).length - i))
  else if byte = '/'.toUInt8 ∧ (octets rest)[i + 1]? = some '*'.toUInt8 then
    (slice rest (i + 2)).map fun cs => (find? ['*', '/'] cs).map fun n =>
      (.code opened :: below, i + (2 + n + 2))
  else .ok (some (.code opened :: below, i + 1))

def round (rest : List Char) (top : Scan) (below : List Scan) (i : Nat) (byte : UInt8) :
    Except Breach (Option (List Scan × Nat)) :=
  match top with
  | text => .ok (some (roundText rest below i byte))
  | code opened => roundCode rest opened below i byte

/-- At most `bound` rounds, until nothing is open or the text ends. -/
def rounds (rest : List Char) : Nat → List Scan → Nat → Except Breach (Option Nat)
  | _, [], i => .ok (some i)
  | 0, _ :: _, _ => .error .endless
  | bound + 1, top :: below, i =>
    match (octets rest)[i]? with
    | none => .ok none
    | some byte =>
      match round rest top below i byte with
      | .error e => .error e
      | .ok none => .ok none
      | .ok (some (stack, i)) => rounds rest bound stack i

end Scan

/-- The number of bytes of the text up to the end of the closer of what is open in front of it. -/
def scanNested (rest : List Char) (initial : Scan) : Except Breach (Option Nat) :=
  Scan.rounds rest ((octets rest).length + 1) [initial] 0

namespace Text

private def placed (i : Nat) (cs : List Char) (found : Option Nat) : Option Nat :=
  found.map fun n => i + byteSize (cs.take n)

section Placed

variable {i : Nat} {c : Char} {cs : List Char} {found : Option Nat}

private theorem placed_none : placed i cs none = none := rfl

private theorem placed_zero : placed i cs (some 0) = some i := rfl

private theorem placed_add (n : Nat) :
    placed i cs (found.map (· + n)) = placed (i + byteSize (cs.take n)) (cs.drop n) found := by
  cases found with
  | none => rfl
  | some m =>
    rw [placed, placed, Option.map_some, Option.map_some, Option.map_some, Nat.add_comm m n,
      List.take_add, byteSize_append, Nat.add_assoc]

private theorem placed_cons :
    placed i (c :: cs) (found.map (· + 1)) = placed (i + c.utf8Size) cs found := by
  rw [placed_add, List.take_succ_cons, List.take_zero, List.drop_succ_cons, List.drop_zero,
    byteSize_cons, byteSize_nil, Nat.add_zero]

private theorem placed_add_left (k : Nat) :
    placed (i + k) cs found = (placed i cs found).map fun n => n + k := by
  cases found with
  | none => rfl
  | some n => exact congrArg some (Nat.add_right_comm i k _)

end Placed

end Text

section Quoted

variable {front cs : List Char} {c quote : Char} {bytes : List UInt8} {i : Nat}

private theorem scanQuoted_end (h : bytes.length ≤ i) : scanQuoted bytes quote i = none := by
  rw [scanQuoted, dif_neg (Nat.not_lt.2 h)]

private theorem scanQuoted_of_getElem? {byte : UInt8} (h : bytes[i]? = some byte) :
    scanQuoted bytes quote i = if byte = '\\'.toUInt8 then scanQuoted bytes quote (i + 2)
      else if byte = quote.toUInt8 then some (i + 1) else scanQuoted bytes quote (i + 1) := by
  obtain ⟨hlt, rfl⟩ := List.getElem?_eq_some_iff.1 h
  rw [scanQuoted, dif_pos hlt]

private theorem scanQuoted_inside (front cs : List Char) (hquote : quote.utf8Size = 1) {j k : Nat}
    (hpos : 0 < j) (hk : j + k = c.utf8Size) :
    scanQuoted (octets (front ++ c :: cs)) quote (byteSize front + j) =
      scanQuoted (octets (front ++ c :: cs)) quote (byteSize front + c.utf8Size) := by
  induction k generalizing j with
  | zero => rw [← hk, Nat.add_zero]
  | succ k ih =>
    obtain ⟨byte, hbyte, hne⟩ := getElem?_octets_inside front cs hpos (show j < c.utf8Size by omega)
    rw [scanQuoted_of_getElem? hbyte, if_neg (hne _ (by decide)), if_neg (hne _ hquote),
      Nat.add_assoc, ih (by omega) (by omega)]

private theorem scanQuoted_octets (hquote : quote.utf8Size = 1) (front behind : List Char) :
    scanQuoted (octets (front ++ behind)) quote (byteSize front) =
      placed (byteSize front) behind (closing? [.quoted quote] behind) := by
  match behind with
  | [] =>
    rw [closing?_nil, placed_none, List.append_nil,
      scanQuoted_end (Nat.le_of_eq (length_octets front))]
  | c :: cs =>
    obtain ⟨byte, hbyte, hchar⟩ := exists_octet front c cs
    have hnext {d : Char} {r : List Char} (left : List Char) (hcs : c :: cs = left ++ d :: r) :
        scanQuoted (octets (front ++ c :: cs)) quote (byteSize front + byteSize left + 1) =
          placed (byteSize front + byteSize left + d.utf8Size) r (closing? [.quoted quote] r) := by
      have hshort : r.length < (c :: cs).length := by
        rw [hcs, List.length_append, List.length_cons]
        omega
      have hrest := scanQuoted_octets hquote (front ++ left ++ [d]) r
      have hin := scanQuoted_inside (front ++ left) r hquote Nat.one_pos
        (Nat.add_sub_cancel' d.utf8Size_pos)
      rw [List.append_assoc, List.singleton_append] at hrest
      rw [hcs, ← List.append_assoc, ← byteSize_append, hin]
      rwa [byteSize_append _ [d], byteSize_cons, byteSize_nil, Nat.add_zero] at hrest
    rw [scanQuoted_of_getElem? hbyte]
    simp only [hchar _ hquote, hchar '\\' (by decide)]
    by_cases hslash : c = '\\'
    · subst hslash
      rw [if_pos rfl]
      match cs with
      | [] =>
        rw [closing?, placed_none, scanQuoted_end]
        rw [length_octets, byteSize_append]
        exact Nat.add_le_add_left (by decide) _
      | d :: r =>
        rw [closing?, ← map_add_map_add _ 1 1, placed_cons, placed_cons]
        exact hnext ['\\'] rfl
    · rw [if_neg hslash, closing?_quoted_pass hslash, placed_cons]
      by_cases hc : c = quote
      · subst hc
        rw [if_pos rfl, if_pos rfl, closing?, placed_zero, hquote]
      · rw [if_neg hc, if_neg hc]
        exact hnext [] rfl
termination_by behind.length
decreasing_by exact hshort

end Quoted

namespace Text

private theorem find?_newline (cs : List Char) :
    (find? ['\n'] cs).getD (byteSize cs) = byteSize (cs.takeWhile (· != '\n')) := by
  induction cs with
  | nil => rfl
  | cons c cs ih =>
    by_cases hc : c = '\n'
    · subst hc
      rfl
    · have hprefix : ['\n'].isPrefixOf (c :: cs) = false := by
        simpa [List.isPrefixOf] using Ne.symm hc
      simp only [List.takeWhile_cons, bne_iff_ne, ne_eq, hc, not_false_eq_true, ↓reduceIte,
        byteSize_cons, ← ih, find?, hprefix, Bool.false_eq_true]
      cases find? ['\n'] cs <;> rfl

private theorem find?_blockComment (cs : List Char) :
    (find? ['*', '/'] cs).map (· + 2) = placed 0 cs (closing? [.blockComment] cs) := by
  induction cs with
  | nil => rfl
  | cons c cs ih =>
    by_cases hclose : c = '*' ∧ cs.head? = some '/'
    · obtain ⟨rfl, hhead⟩ := hclose
      obtain ⟨r, rfl⟩ := List.head?_eq_some_iff.1 hhead
      rw [closing?, closing?]
      rfl
    · have hprefix : ['*', '/'].isPrefixOf (c :: cs) = false := by
        rw [← Bool.not_eq_true, List.isPrefixOf_iff_prefix, List.cons_prefix_cons,
          List.cons_prefix_iff]
        rintro ⟨hc, r, rfl, -⟩
        exact hclose ⟨hc.symm, rfl⟩
      rw [closing?_blockComment_pass fun hc hd => hclose ⟨hc, hd⟩, placed_cons, placed_add_left,
        ← ih, find?, hprefix]
      simp only [Bool.false_eq_true, ↓reduceIte, Option.map_map]
      congr 1
      funext n
      show c.utf8Size + n + 2 = n + 2 + c.utf8Size
      omega

end Text

namespace Enclosure

private theorem closing?_line {opened : Nat} {es : List Enclosure} (cs : List Char) :
    closing? (.lineComment :: .code opened :: es) cs =
      (closing? (.code opened :: es) (cs.drop (cs.takeWhile (· != '\n')).length)).map
        (· + (cs.takeWhile (· != '\n')).length) := by
  by_cases h : cs.drop (cs.takeWhile (· != '\n')).length = []
  · rw [h, closing?_nil]
    induction cs with
    | nil => exact closing?_nil
    | cons c cs ih =>
      by_cases hc : c = '\n'
      · subst hc
        exact absurd h (List.cons_ne_nil _ _)
      · simp only [List.takeWhile_cons, bne_iff_ne, ne_eq, hc, not_false_eq_true, ↓reduceIte,
          List.length_cons, List.drop_succ_cons] at h
        rw [closing?, if_neg hc, ih h]
        rfl
  · simpa only [List.append_nil] using @closing?_lineComment opened es [] cs h

private theorem closing?_cons_of_some {e : Enclosure} {cs : List Char} {n : Nat}
    (h : closing? [e] cs = some n) (es : List Enclosure) :
    closing? (e :: es) cs = (closing? es (cs.drop n)).map (· + n) := by
  have happend := closing?_append h es []
  rwa [List.append_nil, List.append_nil, List.singleton_append] at happend

private theorem closing?_cons_of_none {e : Enclosure} {cs : List Char} (h : closing? [e] cs = none)
    (es : List Enclosure) : closing? (e :: es) cs = none := by
  rw [Option.eq_none_iff_forall_ne_some]
  intro m hm
  obtain ⟨n, k, -, hn, -⟩ := @exists_closing?_of_append [e] es cs m hm
  have hsome := closing?_append_of_some hn (cs.drop n)
  rw [List.take_append_drop, h] at hsome
  cases hsome

end Enclosure

namespace Scan

section Rounds

variable {front cs : List Char} {c : Char} {rest : List Char} {top : Scan} {below stack : List Scan}
    {bound i j : Nat}

private theorem slice_append (left : List Char) (hrest : rest = left ++ cs)
    (hi : i = byteSize left) :
    slice rest i = .ok cs := by
  rw [slice, hrest, hi, dropBytes?_append]

private theorem rounds_nil (rest : List Char) (bound i : Nat) :
    rounds rest bound [] i = .ok (some i) := by
  cases bound <;> rfl

private theorem rounds_end (h : (octets rest).length ≤ i) :
    rounds rest (bound + 1) (top :: below) i = .ok none := by
  rw [rounds, List.getElem?_eq_none_iff.2 h]

private theorem rounds_move {byte : UInt8} (hbyte : (octets rest)[i]? = some byte)
    (h : round rest top below i byte = .ok (some (stack, j))) :
    rounds rest (bound + 1) (top :: below) i = rounds rest bound stack j := by
  rw [rounds, hbyte]
  simp only [h]

private theorem rounds_stop {byte : UInt8} (hbyte : (octets rest)[i]? = some byte)
    (h : round rest top below i byte = .ok none) :
    rounds rest (bound + 1) (top :: below) i = .ok none := by
  rw [rounds, hbyte]
  simp only [h]

private theorem round_pass {byte : UInt8} (h : ∀ d : Char, d.utf8Size = 1 → byte ≠ d.toUInt8) :
    round rest top below i byte = .ok (some (top :: below, i + 1)) := by
  have hne (d : Char) (hd : d.utf8Size = 1) : (byte = d.toUInt8) = False := eq_false (h d hd)
  cases top with
  | text => simp (disch := decide) only [round, roundText, hne, false_and, ↓reduceIte]
  | code opened =>
    simp (disch := decide) only [round, roundCode, hne, and_false, false_and, ↓reduceIte]

private theorem rounds_inside {k : Nat} (hpos : 0 < j) (hk : j + k = c.utf8Size) :
    rounds (front ++ c :: cs) (bound + k) (top :: below) (byteSize front + j) =
      rounds (front ++ c :: cs) bound (top :: below) (byteSize front + c.utf8Size) := by
  induction k generalizing j with
  | zero => rw [← hk, Nat.add_zero, Nat.add_zero]
  | succ k ih =>
    obtain ⟨byte, hbyte, hne⟩ := getElem?_octets_inside front cs hpos (show j < c.utf8Size by omega)
    rw [← Nat.add_assoc, rounds_move hbyte (round_pass hne), Nat.add_assoc,
      ih (by omega) (by omega)]

private theorem rounds_second (hbound : c.utf8Size ≤ bound + 1) (hi : i = byteSize front + 1) :
    rounds (front ++ c :: cs) bound (top :: below) i =
      rounds (front ++ c :: cs) (bound + 1 - c.utf8Size) (top :: below)
        (byteSize front + c.utf8Size) := by
  have hpos := c.utf8Size_pos
  rw [hi, ← rounds_inside Nat.one_pos (Nat.add_sub_cancel' hpos)]
  congr 1
  omega

private theorem round_text (front cs : List Char) (below : List Scan) {byte : UInt8}
    (h : ∀ d : Char, d.utf8Size = 1 → (byte = d.toUInt8 ↔ c = d)) :
    round (front ++ c :: cs) .text below (byteSize front) byte = .ok (some (
      if c = '\\' then (.text :: below, byteSize front + 2)
      else if c = '"' then (below, byteSize front + 1)
      else if c = '$' ∧ cs.head? = some '\x7b' then
        (.code 0 :: .text :: below, byteSize front + 1 + 1)
      else (.text :: below, byteSize front + 1))) := by
  have hcode : (c = '$' ∧ (octets (front ++ c :: cs))[byteSize front + 1]? = some '\x7b'.toUInt8) ↔
      (c = '$' ∧ cs.head? = some '\x7b') := by
    refine and_congr_right fun hc => ?_
    subst hc
    exact getElem?_octets_next (by decide) (by decide)
  simp (disch := decide) only [round, roundText, h, hcode]

private theorem round_code (front cs : List Char) (below : List Scan) (opened : Nat) {byte : UInt8}
    (h : ∀ d : Char, d.utf8Size = 1 → (byte = d.toUInt8 ↔ c = d)) :
    round (front ++ c :: cs) (.code opened) below (byteSize front) byte =
      if c = '\x7d' then
        .ok (some (if opened = 0 then below else .code (opened - 1) :: below, byteSize front + 1))
      else if c = '\x7b' then .ok (some (.code (opened + 1) :: below, byteSize front + 1))
      else if c = '"' then .ok (some (.text :: .code opened :: below, byteSize front + 1))
      else if c = '\'' then
        .ok ((placed (byteSize front + 1) cs (closing? [.quoted '\''] cs)).map fun i =>
          (.code opened :: below, i))
      else if c = '/' ∧ cs.head? = some '/' then
        .ok (some (.code opened :: below,
          byteSize front + byteSize ((c :: cs).takeWhile (· != '\n'))))
      else if c = '/' ∧ cs.head? = some '*' then
        .ok ((placed (byteSize front + 2) cs.tail (closing? [.blockComment] cs.tail)).map fun i =>
          (.code opened :: below, i))
      else .ok (some (.code opened :: below, byteSize front + 1)) := by
  have hcomment {d : Char} (hd : d.utf8Size = 1) :
      (c = '/' ∧ (octets (front ++ c :: cs))[byteSize front + 1]? = some d.toUInt8) ↔
        (c = '/' ∧ cs.head? = some d) := by
    refine and_congr_right fun hc => ?_
    subst hc
    exact getElem?_octets_next (by decide) hd
  simp (disch := decide) only [round, roundCode, h, hcomment]
  by_cases hclose : c = '\x7d'
  · subst hclose
    by_cases hopened : opened = 0 <;> simp [hopened]
  simp only [hclose, and_false, ↓reduceIte]
  refine ite_congr rfl (fun _ => rfl) fun _ => ite_congr rfl (fun _ => rfl) fun _ => ?_
  refine ite_congr rfl (fun hc => ?_) fun _ => ite_congr rfl (fun _ => ?_) fun _ =>
    ite_congr rfl (fun hc => ?_) fun _ => rfl
  · subst hc
    have hslice : slice (front ++ '\'' :: cs) (byteSize front + 1) = .ok cs :=
      slice_append (front ++ ['\'']) (List.append_assoc front ['\''] cs).symm
        (byteSize_append front ['\'']).symm
    have hquoted : scanQuoted (octets cs) '\'' 0 = placed 0 cs (closing? [.quoted '\''] cs) :=
      scanQuoted_octets (by decide) [] cs
    rw [hslice, Except.map, hquoted, ← Nat.zero_add (byteSize front + 1), placed_add_left,
      Option.map_map]
    simp only [Function.comp_def, Nat.add_assoc, Nat.add_comm]
  · rw [slice_append front rfl rfl, length_octets, byteSize_append, Nat.add_sub_cancel_left,
      Except.map, find?_newline]
  · obtain ⟨rfl, hhead⟩ := hc
    obtain ⟨r, rfl⟩ := List.head?_eq_some_iff.1 hhead
    have hslice : slice (front ++ '/' :: '*' :: r) (byteSize front + 2) = .ok r :=
      slice_append (front ++ ['/', '*']) (List.append_assoc front ['/', '*'] r).symm
        (byteSize_append front ['/', '*']).symm
    rw [hslice, Except.map, List.tail_cons, ← Nat.zero_add (byteSize front + 2), placed_add_left,
      ← find?_blockComment, Option.map_map, Option.map_map]
    simp only [Function.comp_def, Nat.add_assoc, Nat.add_comm, Nat.add_left_comm]

end Rounds

/-- From a text on, whatever stands in front of it, the rounds find the closers that are found by
characters. -/
private def Follows (behind : List Char) : Prop :=
  ∀ (front : List Char) (stack : List Scan) (bound : Nat), byteSize behind < bound →
    rounds (front ++ behind) bound stack (byteSize front) =
      .ok (placed (byteSize front) behind (closing? (stack.map enclosure) behind))

section Follows

variable {front cs : List Char} {c : Char} {top : Scan} {below : List Scan} {bound : Nat}
    {byte : UInt8}

private theorem Follows.behind {r : List Char} (h : Follows r) (left : List Char)
    (hcs : c :: cs = left ++ r) (hbound : byteSize r < bound) {stack : List Scan} {i : Nat}
    (hi : i = byteSize front + byteSize left) :
    rounds (front ++ c :: cs) bound stack i =
      .ok (placed (byteSize front) (c :: cs)
        ((closing? (stack.map enclosure) r).map (· + left.length))) := by
  have hrest := h (front ++ left) stack bound hbound
  rw [hi, placed_add, hcs, List.take_left, List.drop_left, ← byteSize_append, ← hrest,
    List.append_assoc]

section Step

variable (ih : ∀ left r, left ≠ [] → c :: cs = left ++ r → Follows r)
    (hbound : byteSize (c :: cs) < bound + 1)
  (hbyte : (octets (front ++ c :: cs))[byteSize front]? = some byte)

include ih hbound hbyte

private theorem follows_move {stack : List Scan} {r : List Char} (left : List Char)
    (hleft : left ≠ []) (hcs : c :: cs = left ++ r)
    (hround : round (front ++ c :: cs) top below (byteSize front) byte =
      .ok (some (stack, byteSize front + byteSize left))) :
    rounds (front ++ c :: cs) (bound + 1) (top :: below) (byteSize front) =
      .ok (placed (byteSize front) (c :: cs)
        ((closing? (stack.map enclosure) r).map (· + left.length))) := by
  have hshort : byteSize r < bound := by
    have hpos := byteSize_pos hleft
    rw [hcs, byteSize_append] at hbound
    omega
  rw [rounds_move hbyte hround]
  exact (ih left r hleft hcs).behind left hcs hshort rfl

private theorem follows_pass (hround : round (front ++ c :: cs) top below (byteSize front) byte =
      .ok (some (top :: below, byteSize front + 1))) :
    rounds (front ++ c :: cs) (bound + 1) (top :: below) (byteSize front) =
      .ok (placed (byteSize front) (c :: cs)
        ((closing? (top.enclosure :: below.map enclosure) cs).map (· + 1))) := by
  have hpos := c.utf8Size_pos
  rw [byteSize_cons] at hbound
  rw [rounds_move hbyte hround, rounds_second (by omega) rfl]
  refine (ih [c] cs (List.cons_ne_nil _ _) rfl).behind [c] rfl ?_ rfl
  omega

private theorem follows_enclosed {r : List Char} {e : Enclosure} (left : List Char)
    (hleft : left ≠ []) (hcs : c :: cs = left ++ r)
    (hround : round (front ++ c :: cs) top below (byteSize front) byte =
      .ok ((placed (byteSize front + byteSize left) r (closing? [e] r)).map fun i =>
        (top :: below, i))) :
    rounds (front ++ c :: cs) (bound + 1) (top :: below) (byteSize front) =
      .ok (placed (byteSize front) (c :: cs)
        ((closing? (e :: top.enclosure :: below.map enclosure) r).map (· + left.length))) := by
  cases hfound : closing? [e] r with
  | none =>
    rw [hfound] at hround
    rw [rounds_stop hbyte hround, closing?_cons_of_none hfound]
    rfl
  | some n =>
    have hsplit : c :: cs = (left ++ r.take n) ++ r.drop n := by
      rw [List.append_assoc, List.take_append_drop, hcs]
    have hmove : round (front ++ c :: cs) top below (byteSize front) byte =
        .ok (some (top :: below, byteSize front + byteSize (left ++ r.take n))) := by
      rw [hround, hfound, byteSize_append, ← Nat.add_assoc]
      rfl
    rw [follows_move ih hbound hbyte (left ++ r.take n) (List.append_ne_nil_of_left_ne_nil hleft _)
      hsplit hmove, closing?_cons_of_some hfound, map_add_map_add, List.length_append,
      List.length_take_of_le (closing?_le hfound), Nat.add_comm n]
    rfl

/-- What a round does is settled by the character that its byte begins, as it is for the scan by
characters. -/
private theorem follows_text (hchar : ∀ d : Char, d.utf8Size = 1 → (byte = d.toUInt8 ↔ c = d)) :
    rounds (front ++ c :: cs) (bound + 1) (.text :: below) (byteSize front) =
      .ok (placed (byteSize front) (c :: cs)
        (closing? (.text :: below.map enclosure) (c :: cs))) := by
  have hround := round_text front cs below hchar
  by_cases hslash : c = '\\'
  · subst hslash
    rw [if_pos rfl] at hround
    rw [byteSize_cons, show '\\'.utf8Size = 1 from rfl] at hbound
    rw [rounds_move hbyte hround]
    cases cs with
    | nil =>
      obtain ⟨bound, rfl⟩ := Nat.exists_eq_add_one_of_ne_zero (show bound ≠ 0 by omega)
      rw [closing?, placed_none, rounds_end]
      rw [length_octets, byteSize_append]
      exact Nat.add_le_add_left (by decide) _
    | cons d r =>
      have hassoc : front ++ '\\' :: d :: r = front ++ ['\\'] ++ d :: r :=
        (List.append_assoc front ['\\'] _).symm
      have hsecond : byteSize front + 2 = byteSize (front ++ ['\\']) + 1 :=
        congrArg (· + 1) (byteSize_append front ['\\']).symm
      rw [byteSize_cons] at hbound
      rw [closing?, hassoc, rounds_second (by omega) hsecond, ← hassoc]
      refine (ih ['\\', d] r (List.cons_ne_nil _ _) rfl).behind ['\\', d] rfl ?_ ?_
      · omega
      · rw [byteSize_append, Nat.add_assoc]
        rfl
  by_cases hquote : c = '"'
  · subst hquote
    rw [if_neg hslash, if_pos rfl] at hround
    rw [closing?]
    exact follows_move ih hbound hbyte ['"'] (List.cons_ne_nil _ _) rfl hround
  by_cases hcode : c = '$' ∧ cs.head? = some '\x7b'
  · rw [if_neg hslash, if_neg hquote, if_pos hcode] at hround
    obtain ⟨rfl, hhead⟩ := hcode
    obtain ⟨r, rfl⟩ := List.head?_eq_some_iff.1 hhead
    rw [closing?]
    exact follows_move ih hbound hbyte ['$', '\x7b'] (List.cons_ne_nil _ _) rfl hround
  · rw [if_neg hslash, if_neg hquote, if_neg hcode] at hround
    rw [closing?_text_pass hslash hquote fun hc hd => hcode ⟨hc, hd⟩]
    exact follows_pass ih hbound hbyte hround

private theorem follows_code {opened : Nat}
    (hchar : ∀ d : Char, d.utf8Size = 1 → (byte = d.toUInt8 ↔ c = d)) :
    rounds (front ++ c :: cs) (bound + 1) (.code opened :: below) (byteSize front) =
      .ok (placed (byteSize front) (c :: cs)
        (closing? (.code opened :: below.map enclosure) (c :: cs))) := by
  have hround := round_code front cs below opened hchar
  by_cases hclose : c = '\x7d'
  · subst hclose
    rw [if_pos rfl] at hround
    have hstack :
        (if opened = 0 then below.map enclosure else .code (opened - 1) :: below.map enclosure) =
          (if opened = 0 then below else .code (opened - 1) :: below).map enclosure := by
      split <;> rfl
    rw [closing?, hstack]
    exact follows_move ih hbound hbyte ['\x7d'] (List.cons_ne_nil _ _) rfl hround
  rw [if_neg hclose] at hround
  by_cases hopen : c = '\x7b'
  · subst hopen
    rw [if_pos rfl] at hround
    rw [closing?]
    exact follows_move ih hbound hbyte ['\x7b'] (List.cons_ne_nil _ _) rfl hround
  rw [if_neg hopen] at hround
  by_cases hdouble : c = '"'
  · subst hdouble
    rw [if_pos rfl] at hround
    rw [closing?]
    exact follows_move ih hbound hbyte ['"'] (List.cons_ne_nil _ _) rfl hround
  rw [if_neg hdouble] at hround
  by_cases hsingle : c = '\''
  · subst hsingle
    rw [if_pos rfl] at hround
    rw [closing?]
    exact follows_enclosed ih hbound hbyte ['\''] (List.cons_ne_nil _ _) rfl hround
  rw [if_neg hsingle] at hround
  by_cases hline : c = '/' ∧ cs.head? = some '/'
  · rw [if_pos hline] at hround
    obtain ⟨rfl, hhead⟩ := hline
    obtain ⟨r, rfl⟩ := List.head?_eq_some_iff.1 hhead
    have hsplit :
        '/' :: '/' :: r = '/' :: '/' :: r.takeWhile (· != '\n') ++
          r.drop (r.takeWhile (· != '\n')).length :=
      congrArg (['/', '/'] ++ ·) (List.prefix_iff_eq_append.1 (List.takeWhile_prefix _)).symm
    rw [closing?, closing?_line, map_add_map_add]
    exact follows_move ih hbound hbyte _ (List.cons_ne_nil _ _) hsplit hround
  rw [if_neg hline] at hround
  by_cases hblock : c = '/' ∧ cs.head? = some '*'
  · rw [if_pos hblock] at hround
    obtain ⟨rfl, hhead⟩ := hblock
    obtain ⟨r, rfl⟩ := List.head?_eq_some_iff.1 hhead
    rw [closing?]
    exact follows_enclosed ih hbound hbyte ['/', '*'] (List.cons_ne_nil _ _) rfl hround
  · rw [if_neg hblock] at hround
    rw [closing?_code_pass hopen hclose hdouble hsingle
      fun hc => ⟨fun hd => hline ⟨hc, hd⟩, fun hd => hblock ⟨hc, hd⟩⟩]
    exact follows_pass ih hbound hbyte hround

end Step

private theorem follows (behind : List Char) : Follows behind := by
  intro front stack bound hbound
  match stack, behind with
  | [], behind => rw [rounds_nil, List.map_nil, closing?, placed_zero]
  | top :: below, [] =>
    obtain ⟨bound, rfl⟩ := Nat.exists_eq_add_one_of_ne_zero (Nat.ne_zero_of_lt hbound)
    rw [List.map_cons, closing?_nil, placed_none, List.append_nil,
      rounds_end (Nat.le_of_eq (length_octets front))]
  | top :: below, c :: cs =>
    obtain ⟨bound, rfl⟩ := Nat.exists_eq_add_one_of_ne_zero (Nat.ne_zero_of_lt hbound)
    obtain ⟨byte, hbyte, hchar⟩ := exists_octet front c cs
    have hbehind (left r : List Char) (hleft : left ≠ []) (hcs : c :: cs = left ++ r) :
        Follows r := by
      have hshort : r.length < (c :: cs).length := by
        rw [hcs, List.length_append]
        exact Nat.lt_add_of_pos_left (List.length_pos_iff.2 hleft)
      exact follows r
    cases top with
    | text => exact follows_text hbehind hbound hbyte hchar
    | code opened => exact follows_code hbehind hbound hbyte hchar
termination_by behind.length
decreasing_by exact hshort

end Follows

end Scan

section Nested

variable {r : List Char} {initial : Scan}

/-- By bytes, a scan ends where it does by characters, and never for want of a slice, a brace or a
round. -/
private theorem scanNested_eq (r : List Char) (initial : Scan) :
    scanNested r initial = .ok ((closing? [initial.enclosure] r).map fun n =>
      byteSize (r.take n)) := by
  have hbound : byteSize r < (octets r).length + 1 := by
    rw [length_octets]
    exact Nat.lt_succ_self _
  have hfollows := Scan.follows r [] [initial] _ hbound
  refine hfollows.trans ?_
  simp only [placed, byteSize_nil, Nat.zero_add, List.map_cons, List.map_nil]

private theorem utf8Size_closer (initial : Scan) : initial.closer.utf8Size = 1 := by
  cases initial <;> rfl

private theorem exists_closer {n : Nat} (h : closing? [initial.enclosure] r = some n) :
    ∃ front behind, r = front ++ initial.closer :: behind ∧
    r.take n = front ++ [initial.closer] := by
  obtain ⟨front, hfront⟩ := closing?_closer h rfl
  refine ⟨front, r.drop n, ?_, hfront⟩
  rw [← List.singleton_append, ← List.append_assoc, show front ++ [initial.closer] =
    r.take n from hfront.symm, List.take_append_drop]

/-- The nested scan of any text has an answer. A place that it answers is one between two characters
of the text, behind the byte that closes what was open at first, and what stands behind that place
is of no account. -/
theorem scanNested_local (r : List Char) (initial : Scan) :
    ∃ found, scanNested r initial = .ok found ∧
      found = (closing? [initial.enclosure] r).map (fun n => byteSize (r.take n)) ∧
      ∀ n, found = some n →
        1 ≤ n ∧ n ≤ (octets r).length ∧ (octets r)[n - 1]? = some initial.closer.toUInt8 ∧
          ∃ front, takeBytes? n r = some front ∧ ∀ rest,
            scanNested (front ++ rest) initial = .ok (some n) := by
  refine ⟨_, scanNested_eq r initial, rfl, fun n hn => ?_⟩
  obtain ⟨k, hk, rfl⟩ := Option.map_eq_some_iff.1 hn
  obtain ⟨front, behind, hr, htake⟩ := exists_closer hk
  have hsize : byteSize (r.take k) = byteSize front + 1 := by
    rw [htake, byteSize_append, byteSize_cons, byteSize_nil, utf8Size_closer]
  have hsplit := List.take_append_drop k r
  refine ⟨?_, ?_, ?_, r.take k, ?_, fun rest => ?_⟩
  · omega
  · have := congrArg byteSize hsplit
    rw [byteSize_append] at this
    rw [length_octets]
    omega
  · rw [hsize, Nat.add_sub_cancel, hr]
    exact (getElem?_octets_eq_some front _ (utf8Size_closer initial)).2 rfl
  · have := takeBytes?_append (r.take k) (r.drop k)
    rwa [hsplit] at this
  · have hagain := closing?_append_of_some (closing?_take hk) rest
    rw [scanNested_eq, hagain, Option.map_some, List.take_append_of_le_length, List.take_take,
      Nat.min_self]
    exact Nat.le_of_eq (List.length_take_of_le (closing?_le hk)).symm

/-- An escape in front of a character of two bytes, and code that holds a string, a comment and
braces. -/
example : scanNested "\\é$\x7b'\x7d' /* \" */ \x7b\x7d\x7d\" rest".toList .text =
    .ok (some 21) := by
  cbv

end Nested

end ApiScript
