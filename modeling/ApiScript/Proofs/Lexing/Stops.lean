import ApiScript.Proofs.Lexing.Longest

set_option autoImplicit false
set_option relaxedAutoImplicit false

/-!
Lexemes in front of other text: what makes no longer lexeme of one when it is written behind it. A
number does not go on with a point that no digit follows, so that a range may begin there.
-/

namespace ApiScript

namespace Rule

open Lexeme

def goesOn : List Char → Bool
  | [] => false
  | c :: cs => isWordPart c || c == '+' || c == '-' || (c == '.' && cs.head?.any Char.isDigit)

private def Numeric : List Char → Prop
  | [] => True
  | c :: cs => goesOn (c :: cs) = true ∧ Numeric cs

section Numeric

variable {ds f e u cs front behind rest : List Char} {c : Char} {kind : NumberClass}

private theorem goesOn_append (h : goesOn cs = true) (rest : List Char) :
    goesOn (cs ++ rest) = true := by
  cases cs with
  | nil => cases h
  | cons c cs =>
    cases cs with
    | nil =>
      simp only [goesOn, List.head?_nil, Option.any_none, Bool.and_false, Bool.or_false] at h
      simp only [List.cons_append, goesOn, h, Bool.true_or]
    | cons d cs => exact h

private theorem Numeric.append (hcs : Numeric cs) (hrest : Numeric rest) :
    Numeric (cs ++ rest) := by
  induction cs with
  | nil => exact hrest
  | cons c cs ih => exact ⟨goesOn_append hcs.1 rest, ih hcs.2⟩

private theorem Numeric.drop (h : Numeric (front ++ rest)) : Numeric rest := by
  induction front with
  | nil => exact h
  | cons c front ih => exact ih h.2

private theorem goesOn_of_isWordPart (h : isWordPart c = true) (cs : List Char) :
    goesOn (c :: cs) = true := by
  rw [goesOn, h]
  rfl

private theorem isWordPart_of_isDigit (h : c.isDigit = true) : isWordPart c = true := by
  simp [isWordPart, Char.isAlphanum, h]

private theorem numeric_run {p : Char → Bool} (hp : ∀ c, p c = true → isWordPart c = true)
    (h : ds ∈ run p) : Numeric ds := by
  have hall : ∀ d ∈ ds, p d = true := List.all_eq_true.1 h.2
  clear h
  induction ds with
  | nil => trivial
  | cons d ds ih =>
    obtain ⟨hd, hds⟩ := List.forall_mem_cons.1 hall
    exact ⟨goesOn_of_isWordPart (hp d hd) ds, ih hds⟩

private theorem numeric_digits (h : ds ∈ run Char.isDigit) : Numeric ds :=
  numeric_run (fun _ => isWordPart_of_isDigit) h

private theorem numeric_fraction (h : f ∈ 1 + fraction) : Numeric f := by
  rcases h with rfl | h
  · trivial
  · obtain ⟨ds, hds, rfl⟩ := mem_fraction.1 h
    refine ⟨?_, numeric_digits hds⟩
    obtain ⟨d, ds, rfl⟩ := List.exists_cons_of_ne_nil hds.1
    have hd : d.isDigit = true := (Bool.and_eq_true_iff.1 hds.2).1
    simp [goesOn, hd]

private theorem numeric_exponent (h : e ∈ 1 + exponent) : Numeric e := by
  rcases h with rfl | h
  · trivial
  · obtain ⟨c, sign, ds, hds, hc, hsign, rfl⟩ := mem_exponent.1 h
    refine ⟨?_, Numeric.append ?_ (numeric_digits hds)⟩
    · rcases hc with rfl | rfl
      · exact goesOn_of_isWordPart rfl _
      · exact goesOn_of_isWordPart rfl _
    · rcases hsign with rfl | rfl | rfl
      · trivial
      · exact ⟨rfl, trivial⟩
      · exact ⟨rfl, trivial⟩

private theorem numeric_unit (h : u ∈ unit kind) : Numeric u := by
  have hunits : ∀ a ∈ NumberClass.units,
      a.1.toList.all isWordPart = true ∧ a.1.toList ≠ [] := by decide
  obtain ⟨hall, hne⟩ := hunits _ h
  rw [String.toList_ofList] at hall hne
  exact numeric_run (fun _ => id) ⟨hne, hall⟩

private theorem isWordPart_of_isAlpha (h : c.isAlpha = true) : isWordPart c = true := by
  simp [isWordPart, Char.isAlphanum, h]

private theorem isWordPart_of_isHexDigit (h : isHexDigit c = true) : isWordPart c = true := by
  simp only [isHexDigit, Bool.or_eq_true, Bool.and_eq_true, decide_eq_true_eq] at h
  rcases h with (h | ⟨hfirst, hlast⟩) | ⟨hfirst, hlast⟩
  · exact isWordPart_of_isDigit h
  · have hz : c ≤ 'z' := Char.le_trans hlast (by decide)
    have hlower : c.isLower = true :=
      Bool.and_eq_true_iff.2 ⟨decide_eq_true hfirst, decide_eq_true hz⟩
    exact isWordPart_of_isAlpha (Bool.or_eq_true_iff.2 (.inr hlower))
  · have hz : c ≤ 'Z' := Char.le_trans hlast (by decide)
    have hupper : c.isUpper = true := decide_eq_true ⟨hfirst, hz⟩
    exact isWordPart_of_isAlpha (Bool.or_eq_true_iff.2 (.inl hupper))

private theorem isWordPart_of_radixDigit {letter : Char} {digit : Char → Bool}
    (h : radixDigit? letter = some digit) :
    isWordPart letter = true ∧ ∀ c, digit c = true → isWordPart c = true := by
  have hoctal (c : Char) (hc : isOctalDigit c = true) : isWordPart c = true := by
    simp only [isOctalDigit, Bool.and_eq_true, decide_eq_true_eq] at hc
    have hnine : c ≤ '9' := Char.le_trans hc.2 (by decide)
    have hdigit : c.isDigit = true := by simpa [Char.isDigit] using ⟨hc.1, hnine⟩
    exact isWordPart_of_isDigit hdigit
  have hbinary (c : Char) (hc : isBinaryDigit c = true) : isWordPart c = true := by
    simp only [isBinaryDigit, Bool.or_eq_true, beq_iff_eq] at hc
    rcases hc with rfl | rfl <;> rfl
  unfold radixDigit? at h
  split at h
  · exact ⟨rfl, Option.some.inj h ▸ fun c => isWordPart_of_isHexDigit⟩
  · exact ⟨rfl, Option.some.inj h ▸ fun c => isWordPart_of_isHexDigit⟩
  · exact ⟨rfl, Option.some.inj h ▸ hoctal⟩
  · exact ⟨rfl, Option.some.inj h ▸ hoctal⟩
  · exact ⟨rfl, Option.some.inj h ▸ hbinary⟩
  · exact ⟨rfl, Option.some.inj h ▸ hbinary⟩
  · cases h

private theorem numeric_numeral (h : front ∈ numeral kind) : Numeric front := by
  have hmagnitude (h : front ∈ run Char.isDigit * (1 + fraction) * unit kind) : Numeric front := by
    obtain ⟨_, ⟨ds, hds, f, hf, rfl⟩, u, hu, rfl⟩ := h
    exact ((numeric_digits hds).append (numeric_fraction hf)).append (numeric_unit hu)
  cases kind with
  | integer =>
    rcases h with hds | ⟨letter, digit, hdigit, _, rfl, hs, hhs, rfl⟩
    · exact numeric_digits hds
    · obtain ⟨hletter, hpart⟩ := isWordPart_of_radixDigit hdigit
      exact ⟨goesOn_of_isWordPart rfl _, goesOn_of_isWordPart hletter _, numeric_run hpart hhs⟩
  | float =>
    rcases h with ⟨_, ⟨ds, hds, f, hf, rfl⟩, e, he, rfl⟩ | ⟨ds, hds, e, he, rfl⟩
    · exact ((numeric_digits hds).append (numeric_fraction (.inr hf))).append (numeric_exponent he)
    · exact (numeric_digits hds).append (numeric_exponent (.inr he))
  | duration => exact hmagnitude h
  | size => exact hmagnitude h

theorem numberLength_append (h : front ∈ numeral kind) (hrest : goesOn rest = false) :
    numberLength (front ++ rest) = (kind, front.length) := by
  obtain ⟨c, cs, hfront, hdigit⟩ := numeral_head h
  obtain ⟨front', behind, hcs, hlength, hmem⟩ := numeral_fits hdigit (cs ++ rest)
  rw [← List.cons_append, ← hfront] at hcs hlength hmem
  rcases numeral_longest h rest with hlt | ⟨hn, hkind⟩
  · -- What is read besides the number begins with what stands behind it.
    rw [← hlength] at hlt
    obtain ⟨more, rfl⟩ : front <+: front' :=
      List.prefix_of_prefix_length_le ⟨rest, rfl⟩ ⟨behind, hcs.symm⟩ (Nat.le_of_lt hlt)
    have hmore : Numeric more := (numeric_numeral hmem).drop
    rw [List.append_assoc, List.append_cancel_left_eq] at hcs
    rw [List.length_append] at hlt
    obtain ⟨d, more, rfl⟩ : ∃ d ds, more = d :: ds :=
      List.exists_cons_of_ne_nil (by rintro rfl; simp at hlt)
    have hgoes : goesOn rest = true := hcs ▸ goesOn_append hmore.1 behind
    rw [hrest] at hgoes
    cases hgoes
  · exact Prod.ext hkind.symm hn.symm

end Numeric

end Rule

namespace Lexeme

/-- What is written behind a lexeme does not run into it. -/
def Stops : Lexeme → List Char → Prop
  | keyword _, rest | identifier _, rest => ∀ c ∈ rest.head?, isWordPart c = false ∧ c ≠ '"'
  | symbol s, rest => ∀ c ∈ rest.head?, s.growsBy c = false
  | number _ _, rest => Rule.goesOn rest = false
  | comment .line _, rest => ∀ c ∈ rest.head?, c = '\n'
  | string _ _, _ | comment .block _, _ | invalid, _ => True

theorem stops_nil (l : Lexeme) : l.Stops [] := by
  cases l with
  | comment kind => cases kind <;> simp [Stops]
  | number => rfl
  | _ => simp [Stops]

end Lexeme

end ApiScript
