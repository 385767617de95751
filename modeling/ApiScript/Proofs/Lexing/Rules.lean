import ApiScript.Proofs.Lexing.Pieces
import Mathlib.Computability.Language

set_option autoImplicit false
set_option relaxedAutoImplicit false

/-!
Rules for lexemes: each kind of lexeme has the pattern that tells it, and a rule wins where its
pattern fits the longest text. What is read as a number is the longest text that the pattern of one
fits.
-/

namespace ApiScript

/-- What tells a lexeme. -/
inductive Rule
  | keyword (keyword : Keyword)
  | symbol (symbol : Symbol)
  | number (kind : NumberClass)
  | string (kind : StringClass)
  | identifier
  | comment (kind : CommentClass)
  deriving DecidableEq

namespace Rule

def run (p : Char → Bool) : Language Char := {cs | cs ≠ [] ∧ cs.all p = true}

def fraction : Language Char := {['.']} * run Char.isDigit

def exponent : Language Char := {['e'], ['E']} * {[], ['+'], ['-']} * run Char.isDigit

def radix : Language Char :=
  {cs | ∃ letter digit, Lexeme.radixDigit? letter = some digit ∧
    cs ∈ ({['0', letter]} * run digit : Language Char)}

def unit (kind : NumberClass) : Language Char := {cs | (String.ofList cs, kind) ∈ NumberClass.units}

def numeral : NumberClass → Language Char
  | .integer => run Char.isDigit + radix
  | .float => run Char.isDigit * fraction * (1 + exponent) + run Char.isDigit * exponent
  | .duration => run Char.isDigit * (1 + fraction) * unit .duration
  | .size => run Char.isDigit * (1 + fraction) * unit .size

def line : Language Char := {cs | '\n' ∉ cs}

/-- A delimited lexeme is told by what opens it. -/
def pattern : Rule → Language Char
  | keyword k => {k.spelling.toList}
  | symbol s => {s.spelling.toList}
  | number kind => numeral kind
  | string .interpolated => {['"']}
  | string .simple => {['\'']}
  | string .bytes => {['b', '"']}
  | identifier => {cs | Lexeme.Word (String.ofList cs)}
  | comment .line => {['/', '/']} * line
  | comment .block => {['/', '*']}

def Fits (r : Rule) (cs : List Char) (n : Nat) : Prop :=
  ∃ front behind, cs = front ++ behind ∧ front.length = n ∧ front ∈ r.pattern

/-- A keyword goes before an identifier of the same text. -/
def Before : Rule → Rule → Prop
  | keyword _, identifier => True
  | r, r' => r = r'

/-- The pattern fits the first `n` characters, and what else fits there is shorter or comes
behind. -/
structure Wins (r : Rule) (cs : List Char) (n : Nat) : Prop where
  fits : r.Fits cs n
  longest : ∀ r' m, r'.Fits cs m → m < n ∨ m = n ∧ r.Before r'

def read : Rule → List Char → Nat → Except LexicalFault Lexeme × Nat
  | keyword k, _, n => (.ok (.keyword k), n)
  | symbol s, _, n => (.ok (.symbol s), n)
  | number kind, cs, n => (.ok (.number kind (String.ofList (cs.take n))), n)
  | string .interpolated, cs, n =>
    Lexeme.scanDelimited (.string .interpolated) (.unterminatedString '"') .text n cs
  | string .simple, cs, n =>
    Lexeme.scanDelimited (.string .simple) (.unterminatedString '\'') (.quoted '\'') n cs
  | string .bytes, cs, n =>
    Lexeme.scanDelimited (.string .bytes) (.unterminatedString '"') (.quoted '"') n cs
  | identifier, cs, n => (.ok (.identifier (String.ofList (cs.take n))), n)
  | comment .line, cs, n => (.ok (.comment .line (String.ofList (cs.take n))), n)
  | comment .block, cs, n =>
    Lexeme.scanDelimited (.comment .block) .unterminatedComment .blockComment n cs

theorem find?_longest {α : Type} {spelling : α → List Char} {xs : List α} {a : α}
    (hsorted : xs.Pairwise fun a b => (spelling b).length ≤ (spelling a).length) (ha : a ∈ xs)
    (rest : List Char) :
    ∃ b, xs.find? (fun x => (spelling x).isPrefixOf (spelling a ++ rest)) = some b ∧
      ((spelling a).length < (spelling b).length ∨ spelling a = spelling b) := by
  induction xs with
  | nil => cases ha
  | cons x xs ih =>
    obtain ⟨hx, hsorted⟩ := List.pairwise_cons.1 hsorted
    by_cases hfits : spelling x <+: spelling a ++ rest
    · refine ⟨x, List.find?_cons_of_pos (List.isPrefixOf_iff_prefix.2 hfits), ?_⟩
      rcases List.mem_cons.1 ha with rfl | ha
      · exact .inr rfl
      · have hprefix := List.prefix_of_prefix_length_le (List.prefix_append _ rest) hfits (hx a ha)
        exact (Nat.lt_or_eq_of_le (hx a ha)).imp_right hprefix.eq_of_length
    · have hne : ¬(spelling x).isPrefixOf (spelling a ++ rest) :=
        fun h => hfits (List.isPrefixOf_iff_prefix.1 h)
      rw [List.find?_cons_of_neg (p := fun x => (spelling x).isPrefixOf (spelling a ++ rest)) hne]
      refine ih hsorted ((List.mem_cons.1 ha).resolve_left ?_)
      rintro rfl
      exact hfits (List.prefix_append _ rest)

section Numbers

open Lexeme

variable {ds f e u front rest behind cs : List Char} {p : Char → Bool} {kind : NumberClass}

theorem run_le (h : ds ∈ run p) (rest : List Char) : ds.length ≤ runLength p (ds ++ rest) := by
  rw [runLength, List.takeWhile_append_of_pos (List.all_eq_true.1 h.2), List.length_append]
  exact Nat.le_add_right _ _

private theorem run_eq (h : ds ∈ run p) (hrest : ∀ c ∈ rest.head?, p c = false) :
    runLength p (ds ++ rest) = ds.length := by
  rw [runLength, takeWhile_append_of_all h.2 hrest]

private theorem takeWhile_mem_run (h : cs.takeWhile p ≠ []) : cs.takeWhile p ∈ run p :=
  ⟨h, List.all_takeWhile⟩

theorem mem_fraction : f ∈ fraction ↔ ∃ ds ∈ run Char.isDigit, f = '.' :: ds := by
  constructor
  · rintro ⟨_, rfl, ds, hds, rfl⟩
    exact ⟨ds, hds, rfl⟩
  · rintro ⟨ds, hds, rfl⟩
    exact ⟨['.'], rfl, ds, hds, rfl⟩

private theorem fraction_le (h : f ∈ fraction) (rest : List Char) :
    f.length ≤ fractionLength (f ++ rest) := by
  obtain ⟨ds, hds, rfl⟩ := mem_fraction.1 h
  have hle := run_le hds rest
  have hpos := List.length_pos_of_ne_nil hds.1
  rw [List.cons_append, fractionLength, if_neg (by omega), List.length_cons]
  omega

private theorem fraction_eq (h : f ∈ 1 + fraction)
    (hrest : ∀ c ∈ rest.head?, c.isDigit = false ∧ c ≠ '.') :
    fractionLength (f ++ rest) = f.length := by
  rcases h with rfl | h
  · cases rest with
    | nil => rfl
    | cons c rest =>
      have hc := (hrest c rfl).2
      simp [fractionLength, hc]
  · obtain ⟨ds, hds, rfl⟩ := mem_fraction.1 h
    have hlength := run_eq hds fun c hc => (hrest c hc).1
    rw [List.cons_append, fractionLength, hlength,
      if_neg (fun hzero => hds.1 (List.length_eq_zero_iff.1 hzero)), List.length_cons]

theorem mem_exponent : e ∈ exponent ↔
    ∃ c sign, ∃ ds ∈ run Char.isDigit, (c = 'e' ∨ c = 'E') ∧
    (sign = [] ∨ sign = ['+'] ∨ sign = ['-']) ∧
      e = c :: (sign ++ ds) := by
  constructor
  · rintro ⟨_, ⟨_, hc, sign, hsign, rfl⟩, ds, hds, rfl⟩
    rcases hc with rfl | rfl
    · exact ⟨'e', sign, ds, hds, .inl rfl, hsign, rfl⟩
    · exact ⟨'E', sign, ds, hds, .inr rfl, hsign, rfl⟩
  · rintro ⟨c, sign, ds, hds, hc, hsign, rfl⟩
    refine ⟨[c] ++ sign, ⟨[c], ?_, sign, hsign, rfl⟩, ds, hds, rfl⟩
    rcases hc with rfl | rfl
    · exact .inl rfl
    · exact .inr rfl

private theorem exponentLength_letter {c : Char} {sign : List Char} (hc : c = 'e' ∨ c = 'E')
    (hsign : signLength (sign ++ rest) = sign.length) : exponentLength (c :: (sign ++ rest)) =
      if runLength Char.isDigit rest = 0 then 0 else runLength Char.isDigit rest +
        sign.length + 1 := by
  rcases hc with rfl | rfl <;> rw [exponentLength, hsign, List.drop_left]

private theorem exponent_le (h : e ∈ exponent) (rest : List Char) :
    e.length ≤ exponentLength (e ++ rest) := by
  obtain ⟨c, sign, ds, hds, hc, hsign, rfl⟩ := mem_exponent.1 h
  have hle := run_le hds rest
  have hpos := List.length_pos_of_ne_nil hds.1
  have hlength : signLength (sign ++ (ds ++ rest)) = sign.length := by
    rcases hsign with rfl | rfl | rfl
    · obtain ⟨d, ds, rfl⟩ := List.exists_cons_of_ne_nil hds.1
      have hd : d.isDigit = true := (Bool.and_eq_true_iff.1 hds.2).1
      unfold signLength
      split
      · cases ‹_ = _›
        cases hd
      · cases ‹_ = _›
        cases hd
      · rfl
    · rfl
    · rfl
  rw [List.cons_append, List.append_assoc, exponentLength_letter hc hlength, if_neg (by omega),
    List.length_cons, List.length_append]
  omega

private theorem fraction_fits (cs : List Char) :
    ∃ f rest, cs = f ++ rest ∧ f.length = fractionLength cs ∧ f ∈ 1 + fraction := by
  unfold fractionLength
  split
  · rename_i cs
    split
    · exact ⟨[], _, rfl, rfl, .inl rfl⟩
    · rename_i hne
      refine ⟨'.' :: cs.takeWhile Char.isDigit, cs.dropWhile Char.isDigit, ?_, rfl,
        .inr (mem_fraction.2 ⟨_, ?_, rfl⟩)⟩
      · rw [List.cons_append, List.takeWhile_append_dropWhile]
      · exact takeWhile_mem_run fun hnil => hne (congrArg List.length hnil)
  · exact ⟨[], _, rfl, rfl, .inl rfl⟩

private theorem sign_fits (cs : List Char) :
    ∃ sign rest, cs = sign ++ rest ∧ sign.length = signLength cs ∧
    (sign = [] ∨ sign = ['+'] ∨ sign = ['-']) := by
  unfold signLength
  split
  · exact ⟨['+'], _, rfl, rfl, .inr (.inl rfl)⟩
  · exact ⟨['-'], _, rfl, rfl, .inr (.inr rfl)⟩
  · exact ⟨[], _, rfl, rfl, .inl rfl⟩

private theorem exponent_fits (cs : List Char) :
    ∃ e rest, cs = e ++ rest ∧ e.length = exponentLength cs ∧ e ∈ 1 + exponent := by
  have hletter {c : Char} (hc : c = 'e' ∨ c = 'E') (cs : List Char) :
      ∃ e rest, c :: cs = e ++ rest ∧ e.length = exponentLength (c :: cs) ∧ e ∈ 1 + exponent := by
    obtain ⟨sign, rest, rfl, hlength, hsign⟩ := sign_fits cs
    rw [exponentLength_letter hc hlength.symm]
    split
    · exact ⟨[], _, rfl, rfl, .inl rfl⟩
    · rename_i hne
      refine ⟨c :: (sign ++ rest.takeWhile Char.isDigit), rest.dropWhile Char.isDigit, ?_, ?_,
        .inr (mem_exponent.2 ⟨c, sign, _, ?_, hc, hsign, rfl⟩)⟩
      · rw [List.cons_append, List.append_assoc, List.takeWhile_append_dropWhile]
      · rw [List.length_cons, List.length_append, Nat.add_comm sign.length, runLength]
      · exact takeWhile_mem_run fun hnil => hne (congrArg List.length hnil)
  unfold exponentLength
  split
  · exact hletter (.inl rfl) _
  · exact hletter (.inr rfl) _
  · exact ⟨[], cs, rfl, rfl, .inl rfl⟩

private theorem mem_unit : u ∈ unit kind ↔ (String.ofList u, kind) ∈ NumberClass.units := Iff.rfl

private theorem unit_longest (h : u ∈ unit kind) (rest : List Char) : ∃ kind' n,
    NumberClass.unit? (u ++ rest) = some (kind', n) ∧
    (u.length < n ∨ u.length = n ∧ kind = kind') := by
  have hsorted :
      NumberClass.units.Pairwise fun a b => b.1.toList.length ≤ a.1.toList.length := by decide
  have hkinds : ∀ a ∈ NumberClass.units, ∀ b ∈ NumberClass.units, a.1 = b.1 → a.2 = b.2 := by decide
  obtain ⟨⟨suffix, kind'⟩, hfind, hlongest⟩ := find?_longest hsorted h rest
  rw [String.toList_ofList] at hfind hlongest
  refine ⟨kind', suffix.length, by
    rw [NumberClass.unit?, hfind]; rfl, hlongest.imp id fun heq => ?_⟩
  refine ⟨congrArg List.length heq, hkinds _ h _ (List.mem_of_find?_eq_some hfind) ?_⟩
  rw [heq, String.ofList_toList]

private theorem unit_fits {n : Nat} (h : NumberClass.unit? cs = some (kind, n)) :
    ∃ u rest, cs = u ++ rest ∧ u.length = n ∧ u ∈ unit kind := by
  obtain ⟨⟨suffix, kind⟩, hfind, hn⟩ := Option.map_eq_some_iff.1 h
  cases hn
  have hstarts : suffix.toList <+: cs := by simpa using List.find?_some hfind
  obtain ⟨rest, rfl⟩ := hstarts
  refine ⟨suffix.toList, rest, rfl, rfl, ?_⟩
  rw [mem_unit, String.ofList_toList]
  exact List.mem_of_find?_eq_some hfind

private theorem radixDigit?_digit {c : Char} (h : c.isDigit = true) : radixDigit? c = none := by
  unfold radixDigit?
  split <;> first | cases h | rfl

private theorem radixLength?_none (h : ds ∈ run Char.isDigit)
    (hrest : ∀ c ∈ rest.head?, radixDigit? c = none) :
    radixLength? (ds ++ rest) = none := by
  obtain ⟨d, ds, rfl⟩ := List.exists_cons_of_ne_nil h.1
  unfold radixLength?
  split
  · rename_i letter cs heq
    have hletter : radixDigit? letter = none := by
      cases ds with
      | nil => exact hrest letter (congrArg List.head? (List.cons.inj heq).2)
      | cons d' ds =>
        have hd : d'.isDigit = true := (Bool.and_eq_true_iff.1 (Bool.and_eq_true_iff.1 h.2).2).1
        rw [← (List.cons.inj (List.cons.inj heq).2).1]
        exact radixDigit?_digit hd
    rw [hletter, Option.bind_none]
  · rfl

private def ending (decimal : Nat) (fraction : List Char) (rest : List Char) : NumberClass × Nat :=
  match NumberClass.unit? rest with
  | some (kind, n) => (kind, decimal + n)
  | none => (if fraction = [] ∧ exponentLength rest = 0 then .integer else .float,
    decimal + exponentLength rest)

private theorem numberLength_eq (hradix : radixLength? (ds ++ (f ++ rest)) = none)
    (hds : runLength Char.isDigit (ds ++ (f ++ rest)) = ds.length)
    (hf : fractionLength (f ++ rest) = f.length) :
    numberLength (ds ++ (f ++ rest)) = ending (ds.length + f.length) f rest := by
  have hrest : (ds ++ (f ++ rest)).drop (ds.length + f.length) = rest := by
    rw [← List.append_assoc, ← List.length_append, List.drop_left]
  have hwhole : ds.length + f.length + exponentLength rest = ds.length ↔ f = [] ∧
      exponentLength rest = 0 := by
    rw [← List.length_eq_zero_iff]
    omega
  simp only [numberLength, hradix, hds, List.drop_left, hf, hrest, hwhole]
  rfl

structure Ends (c : Char) : Prop where
  digit : c.isDigit = false
  point : c ≠ '.'
  letter : radixDigit? c = none

theorem exponent_ends (h : e ∈ exponent) : ∀ c ∈ (e ++ rest).head?, Ends c := by
  obtain ⟨c, sign, ds, -, rfl | rfl, -, rfl⟩ := mem_exponent.1 h
  · rintro _ ⟨⟩
    exact ⟨by decide, by decide, by decide⟩
  · rintro _ ⟨⟩
    exact ⟨by decide, by decide, by decide⟩

theorem unit_ends (h : u ∈ unit kind) : ∀ c ∈ (u ++ rest).head?, Ends c := by
  have hheads : ∀ a ∈ NumberClass.units, ∃ c cs, a.1.toList = c :: cs ∧ Ends c := by
    simp only [NumberClass.units, List.forall_mem_cons, List.not_mem_nil, false_implies,
      implies_true, and_true]
    refine ⟨?_, ?_, ?_, ?_, ?_, ?_, ?_, ?_⟩ <;> exact ⟨_, _, rfl, by decide, by decide, by decide⟩
  obtain ⟨c, cs, hcs, hc⟩ := hheads _ h
  rw [String.toList_ofList] at hcs
  rw [hcs]
  rintro _ ⟨⟩
  exact hc

private theorem numberLength_ends (hds : ds ∈ run Char.isDigit) (hf : f ∈ 1 + fraction)
    (hrest : ∀ c ∈ rest.head?, Ends c) :
    numberLength (ds ++ (f ++ rest)) = ending (ds.length + f.length) f rest := by
  have hhead : ∀ c ∈ (f ++ rest).head?, c.isDigit = false ∧ radixDigit? c = none := by
    rcases hf with rfl | hf
    · exact fun c hc => ⟨(hrest c hc).digit, (hrest c hc).letter⟩
    · obtain ⟨_, _, rfl⟩ := mem_fraction.1 hf
      rintro _ ⟨⟩
      exact ⟨rfl, rfl⟩
  exact numberLength_eq (radixLength?_none hds fun c hc => (hhead c hc).2) (run_eq hds fun c hc =>
    (hhead c hc).1)
    (fraction_eq hf fun c hc => ⟨(hrest c hc).digit, (hrest c hc).point⟩)

/-- A number of the kind and the length is shorter than what is read, or it is of the kind that is
read. -/
def AtMost (kind : NumberClass) (n : Nat) (found : NumberClass × Nat) : Prop :=
  n < found.2 ∨ n = found.2 ∧ kind = found.1

private theorem AtMost.of_le {n : Nat} {found : NumberClass × Nat} (hn : n ≤ found.2)
    (hkind : kind = found.1) :
    AtMost kind n found := (Nat.lt_or_eq_of_le hn).imp_right fun h => ⟨h, hkind⟩

private theorem AtMost.le {n : Nat} {found : NumberClass × Nat} (h : AtMost kind n found) :
    n ≤ found.2 :=
  h.elim Nat.le_of_lt fun h => Nat.le_of_eq h.1

private theorem AtMost.mono {m n : Nat} {found : NumberClass × Nat} (h : AtMost kind n found)
    (hmn : m ≤ n) :
    AtMost kind m found := by
  rcases h with h | ⟨rfl, rfl⟩
  · exact .inl (hmn.trans_lt h)
  · exact .of_le hmn rfl

private theorem magnitude_longest (h : front ∈ run Char.isDigit * (1 + fraction) * unit kind)
    (behind : List Char) :
    AtMost kind front.length (numberLength (front ++ behind)) := by
  obtain ⟨_, ⟨ds, hds, f, hf, rfl⟩, u, hu, rfl⟩ := h
  obtain ⟨kind', n, hunit, hlongest⟩ := unit_longest hu behind
  simp only [List.append_assoc, numberLength_ends hds hf (unit_ends hu), ending, hunit,
    List.length_append]
  rcases hlongest with hlt | ⟨rfl, rfl⟩
  · exact .inl (by dsimp only; omega)
  · exact .of_le (Nat.le_of_eq (Nat.add_assoc _ _ _).symm) rfl

private theorem exponent_longest (hds : ds ∈ run Char.isDigit) (hf : f ∈ 1 + fraction)
    (he : e ∈ exponent) (behind : List Char) :
    AtMost .float (ds ++ f ++ e).length (numberLength (ds ++ f ++ e ++ behind)) := by
  have hunit : NumberClass.unit? (e ++ behind) = none := by
    obtain ⟨c, sign, ds, -, rfl | rfl, -, rfl⟩ := mem_exponent.1 he <;>
      simp [NumberClass.unit?, NumberClass.units, List.isPrefixOf]
  have hle := exponent_le he behind
  have hpos : e.length ≠ 0 := by
    obtain ⟨_, _, _, -, -, -, rfl⟩ := mem_exponent.1 he
    exact Nat.succ_ne_zero _
  have hne : ¬(f = [] ∧ exponentLength (e ++ behind) = 0) := by omega
  simp only [List.append_assoc, numberLength_ends hds hf (exponent_ends he), ending, hunit,
    if_neg hne, List.length_append]
  exact .of_le (by dsimp only; omega) rfl

private theorem unit?_pos {n : Nat} (h : NumberClass.unit? cs = some (kind, n)) : 0 < n := by
  have hempty : ∀ a ∈ NumberClass.units, a.1 ≠ "" := by decide
  obtain ⟨u, rest, rfl, rfl, hu⟩ := unit_fits h
  refine List.length_pos_of_ne_nil ?_
  rintro rfl
  exact hempty _ hu rfl

private theorem ending_longest (decimal : Nat) (f rest : List Char) :
    AtMost (if f = [] then .integer else .float) decimal (ending decimal f rest) := by
  cases hunit : NumberClass.unit? rest with
  | some found =>
    have hpos := unit?_pos hunit
    simp only [ending, hunit]
    exact .inl (Nat.lt_add_of_pos_right hpos)
  | none =>
    simp only [ending, hunit]
    by_cases hexponent : exponentLength rest = 0
    · simp only [hexponent, and_true]
      exact .of_le (Nat.le_refl _) rfl
    · exact .inl (Nat.lt_add_of_pos_right (Nat.pos_of_ne_zero hexponent))

private theorem decimal_fits (hradix : radixLength? cs = none) :
    ∃ f rest, cs = cs.takeWhile Char.isDigit ++ (f ++ rest) ∧
    f ∈ 1 + fraction ∧ f.length = fractionLength (f ++ rest) ∧
    numberLength cs = ending (runLength Char.isDigit cs + f.length) f rest := by
  obtain ⟨f, rest, hcs, hlength, hf⟩ := fraction_fits (cs.dropWhile Char.isDigit)
  have hsplit : cs = cs.takeWhile Char.isDigit ++ (f ++ rest) := by
    rw [← hcs, List.takeWhile_append_dropWhile]
  rw [hcs] at hlength
  refine ⟨f, rest, hsplit, hf, hlength, ?_⟩
  have hnumber := @numberLength_eq (cs.takeWhile Char.isDigit) f rest
  rw [← hsplit] at hnumber
  exact hnumber hradix rfl hlength.symm

private theorem radix_fits {n : Nat} (h : radixLength? cs = some n) :
    ∃ letter digit hs rest, cs = '0' :: letter :: (hs ++ rest) ∧
    radixDigit? letter = some digit ∧ hs ∈ run digit ∧ n = hs.length + 2 := by
  unfold radixLength? at h
  split at h
  · rename_i letter cs
    obtain ⟨digit, hdigit, hn⟩ := Option.bind_eq_some_iff.1 h
    split at hn
    · cases hn
    · rename_i hne
      cases hn
      refine ⟨letter, digit, cs.takeWhile digit, cs.dropWhile digit, ?_, hdigit, ?_, rfl⟩
      · rw [List.takeWhile_append_dropWhile]
      · exact takeWhile_mem_run fun hnil => hne (congrArg List.length hnil)
  · cases h

private theorem radix_longest (h : front ∈ radix) (behind : List Char) :
    AtMost .integer front.length (numberLength (front ++ behind)) := by
  obtain ⟨letter, digit, hdigit, _, rfl, hs, hhs, rfl⟩ := h
  have hle := run_le hhs behind
  have hpos := List.length_pos_of_ne_nil hhs.1
  have hlength :
      radixLength? ('0' :: letter :: (hs ++ behind)) =
        some (runLength digit (hs ++ behind) + 2) := by
    rw [radixLength?, hdigit, Option.bind_some, if_neg (by omega)]
  simp only [List.cons_append, List.nil_append, numberLength, hlength, List.length_cons]
  exact .of_le (by dsimp only; omega) rfl

private theorem integer_longest (hds : ds ∈ run Char.isDigit) (behind : List Char) :
    AtMost .integer ds.length (numberLength (ds ++ behind)) := by
  cases hradix : radixLength? (ds ++ behind) with
  | some n =>
    obtain ⟨letter, digit, hs, rest, hcs, hdigit, hhs, rfl⟩ := radix_fits hradix
    have hone : ds.length ≤ 1 := by
      by_contra hlength
      obtain ⟨d, d', ds, rfl⟩ : ∃ d d' ds', ds = d :: d' :: ds' := by
        rcases ds with _ | ⟨d, _ | ⟨d', ds⟩⟩
        · exact absurd (Nat.zero_le _) hlength
        · exact absurd (Nat.le_refl _) hlength
        · exact ⟨d, d', ds, rfl⟩
      have hd : d'.isDigit = true := (Bool.and_eq_true_iff.1 (Bool.and_eq_true_iff.1 hds.2).2).1
      rw [(List.cons.inj (List.cons.inj hcs).2).1] at hd
      cases hdigit.symm.trans (radixDigit?_digit hd)
    simp only [numberLength, hradix]
    exact .inl (by dsimp only; omega)
  | none =>
    obtain ⟨f, rest, -, -, -, hnumber⟩ := decimal_fits hradix
    have hle := run_le hds behind
    have hending := ending_longest (runLength Char.isDigit (ds ++ behind) + f.length) f rest
    rw [← hnumber] at hending
    split at hending
    · exact hending.mono (Nat.le_add_right_of_le hle)
    · rename_i hf
      have hpos := List.length_pos_of_ne_nil hf
      exact .inl (Nat.lt_of_lt_of_le (by omega) hending.le)

private theorem float_longest (hds : ds ∈ run Char.isDigit) (hf : f ∈ fraction)
    (behind : List Char) :
    AtMost .float (ds ++ f).length (numberLength (ds ++ f ++ behind)) := by
  obtain ⟨digits, hdigits, rfl⟩ := mem_fraction.1 hf
  have hpoint : ∀ c ∈ ('.' :: digits ++ behind).head?, c.isDigit = false ∧
      radixDigit? c = none := by
    rintro _ ⟨⟩
    exact ⟨rfl, rfl⟩
  have hwhole := run_eq hds fun c hc => (hpoint c hc).1
  have hradix := radixLength?_none hds fun c hc => (hpoint c hc).2
  obtain ⟨f, rest, hcs, -, hlength, hnumber⟩ := decimal_fits hradix
  rw [takeWhile_append_of_all hds.2 fun c hc => (hpoint c hc).1] at hcs
  rw [← List.append_cancel_left hcs] at hlength
  have hle := fraction_le hf behind
  have hne : f ≠ [] := by
    rintro rfl
    rw [← hlength] at hle
    exact absurd hle (Nat.not_succ_le_zero _)
  have hending := ending_longest (ds.length + f.length) f rest
  rw [hwhole] at hnumber
  rw [if_neg hne, ← hnumber, ← List.append_assoc] at hending
  refine hending.mono ?_
  rw [List.length_append]
  omega

theorem numeral_longest (h : front ∈ numeral kind) (behind : List Char) :
    AtMost kind front.length (numberLength (front ++ behind)) := by
  cases kind with
  | integer =>
    rcases h with h | h
    · exact integer_longest h behind
    · exact radix_longest h behind
  | float =>
    rcases h with ⟨_, ⟨ds, hds, f, hf, rfl⟩, e, rfl | he, rfl⟩ | ⟨ds, hds, e, he, rfl⟩
    · have hfloat := float_longest hds hf behind
      rwa [← List.append_nil (ds ++ f)] at hfloat
    · exact exponent_longest hds (.inr hf) he behind
    · have hexponent := exponent_longest hds (.inl rfl) he behind
      rwa [List.append_nil] at hexponent
  | duration => exact magnitude_longest h behind
  | size => exact magnitude_longest h behind

private theorem magnitude_mem (h : front ∈ run Char.isDigit * (1 + fraction) * unit kind) :
    front ∈ numeral kind := by
  have hkinds : ∀ a ∈ NumberClass.units, a.2 = .duration ∨ a.2 = .size := by decide
  obtain ⟨_, _, u, hu, _⟩ := id h
  rcases hkinds _ hu with rfl | rfl
  · exact h
  · exact h

private theorem ending_fits (hds : ds ∈ run Char.isDigit) (hf : f ∈ 1 + fraction)
    (rest : List Char) :
    ∃ t behind, rest = t ++ behind ∧ ds.length + f.length + t.length =
      (ending (ds.length + f.length) f rest).2 ∧
      ds ++ f ++ t ∈ numeral (ending (ds.length + f.length) f rest).1 := by
  cases hunit : NumberClass.unit? rest with
  | some found =>
    obtain ⟨u, behind, rfl, hlength, hu⟩ := unit_fits hunit
    simp only [ending, hunit]
    exact ⟨u, behind, rfl, congrArg _ hlength, magnitude_mem ⟨_, ⟨ds, hds, f, hf, rfl⟩, u, hu, rfl⟩⟩
  | none =>
    obtain ⟨e, behind, hrest, hlength, he⟩ := exponent_fits rest
    simp only [ending, hunit, ← hlength]
    refine ⟨e, behind, hrest, rfl, ?_⟩
    rcases he with rfl | he
    · rcases hf with rfl | hf
      · rw [if_pos ⟨rfl, rfl⟩, List.append_nil, List.append_nil]
        exact .inl hds
      · have hne : f ≠ [] := by
          obtain ⟨_, _, rfl⟩ := mem_fraction.1 hf
          exact List.cons_ne_nil _ _
        rw [if_neg (fun h => hne h.1)]
        exact .inl ⟨_, ⟨ds, hds, f, hf, rfl⟩, [], .inl rfl, rfl⟩
    · have hne : e.length ≠ 0 := by
        obtain ⟨_, _, _, -, -, -, rfl⟩ := mem_exponent.1 he
        exact Nat.succ_ne_zero _
      rw [if_neg (fun h => hne h.2)]
      rcases hf with rfl | hf
      · rw [List.append_nil]
        exact .inr ⟨ds, hds, e, he, rfl⟩
      · exact .inl ⟨_, ⟨ds, hds, f, hf, rfl⟩, e, .inr he, rfl⟩

theorem numeral_fits {c : Char} (h : c.isDigit = true) (cs : List Char) :
    ∃ front behind, c :: cs = front ++ behind ∧
    front.length = (numberLength (c :: cs)).2 ∧ front ∈ numeral (numberLength (c :: cs)).1 := by
  cases hradix : radixLength? (c :: cs) with
  | some n =>
    obtain ⟨letter, digit, hs, rest, hcs, hdigit, hhs, rfl⟩ := radix_fits hradix
    simp only [numberLength, hradix]
    exact ⟨'0' :: letter :: hs, rest, hcs, rfl,
      .inr ⟨letter, digit, hdigit, ['0', letter], rfl, hs, hhs, rfl⟩⟩
  | none =>
    obtain ⟨f, rest, hcs, hf, -, hnumber⟩ := decimal_fits hradix
    have hds : (c :: cs).takeWhile Char.isDigit ∈ run Char.isDigit := by
      refine takeWhile_mem_run ?_
      rw [List.takeWhile_cons_of_pos h]
      exact List.cons_ne_nil _ _
    obtain ⟨t, behind, rfl, hlength, hmem⟩ := ending_fits hds hf rest
    refine ⟨_, behind, ?_, ?_, hnumber ▸ hmem⟩
    · rw [List.append_assoc, List.append_assoc]
      exact hcs
    · rw [hnumber, List.length_append, List.length_append]
      exact hlength

theorem numeral_of_numberLength {c : Char} {cs : List Char} (h : c.isDigit = true)
    (hall : numberLength (c :: cs) = (kind, (c :: cs).length)) : c :: cs ∈ numeral kind := by
  obtain ⟨front, behind, hsplit, hlength, hmem⟩ := numeral_fits h cs
  rw [hall] at hlength hmem
  rw [hsplit, List.length_append] at hlength
  have hbehind : behind = [] := List.eq_nil_of_length_eq_zero (by omega)
  rwa [hsplit, hbehind, List.append_nil]

end Numbers

end Rule

end ApiScript
