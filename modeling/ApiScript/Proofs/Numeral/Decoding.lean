import ApiScript.Numeral.Quantity
import ApiScript.Proofs.Lexing.WellSpelled
import ApiScript.Proofs.Numeral.Integer

set_option autoImplicit false
set_option relaxedAutoImplicit false

/-!
The decoders of numbers know every text that the patterns of numbers fit. The only text without a
value is that of an integer which 64 bits do not hold.
-/

namespace ApiScript

namespace Numeral

/-! ### Runs of digits -/

private theorem exists_isDigit_between {radix : Nat} {b c : Char} (hfirst : '0' ≤ c) (hlast : c ≤ b)
    (hbound : b.toNat - '0'.toNat < 10) (hradix : b.toNat - '0'.toNat < radix) :
    ∃ d, IsDigit radix c d := by
  obtain ⟨hle, hc⟩ := char_between hfirst hlast
  refine ⟨c.toNat - '0'.toNat, by omega, .inl ?_⟩
  rw [lowerDigits_decimal _ (by omega), ← hc]

private theorem exists_isDigit_decimal {radix : Nat} (hradix : 10 ≤ radix) {c : Char}
    (h : c.isDigit = true) :
    ∃ d, IsDigit radix c d := by
  simp only [Char.isDigit, ge_iff_le, Bool.and_eq_true, decide_eq_true_eq] at h
  exact exists_isDigit_between (b := '9') h.1 h.2 (by decide) hradix

theorem exists_isDigit_hex {c : Char} (h : Lexeme.isHexDigit c = true) : ∃ d, IsDigit 16 c d := by
  simp only [Lexeme.isHexDigit, Bool.or_eq_true, Bool.and_eq_true, decide_eq_true_eq] at h
  rcases h with (hdigit | ⟨hfirst, hlast⟩) | ⟨hfirst, hlast⟩
  · exact exists_isDigit_decimal (by omega) hdigit
  · obtain ⟨hle, hc⟩ := char_between hfirst hlast
    have hlt : c.toNat - 'a'.toNat < 6 := Nat.lt_succ_of_le hle
    exact ⟨c.toNat - 'a'.toNat + 10, by omega, .inl (by rw [lowerDigits_letter _ hlt, ← hc])⟩
  · obtain ⟨hle, hc⟩ := char_between hfirst hlast
    have hlt : c.toNat - 'A'.toNat < 6 := Nat.lt_succ_of_le hle
    exact ⟨c.toNat - 'A'.toNat + 10, by omega, .inr (by rw [upperDigits_letter _ hlt, ← hc])⟩

private theorem exists_isDigit_octal {c : Char} (h : Lexeme.isOctalDigit c = true) :
    ∃ d, IsDigit 8 c d := by
  simp only [Lexeme.isOctalDigit, Bool.and_eq_true, decide_eq_true_eq] at h
  exact exists_isDigit_between h.1 h.2 (by decide) (by decide)

private theorem exists_isDigit_binary {c : Char} (h : Lexeme.isBinaryDigit c = true) :
    ∃ d, IsDigit 2 c d := by
  simp only [Lexeme.isBinaryDigit, Bool.or_eq_true, beq_iff_eq] at h
  rcases h with rfl | rfl
  · exact ⟨0, by decide, .inl rfl⟩
  · exact ⟨1, by decide, .inl rfl⟩

theorem exists_digits_of_run {radix : Nat} {p : Char → Bool}
    (hp : ∀ c, p c = true → ∃ d, IsDigit radix c d) {ds : List Char} (h : ds ∈ Rule.run p) :
    ∃ n, Digits radix ds n := by
  have hvalues :
      ∀ cs : List Char, cs.all p = true → ∃ values, List.Forall₂ (IsDigit radix) cs values := by
    intro cs hcs
    induction cs with
    | nil => exact ⟨[], .nil⟩
    | cons c cs ih =>
      rw [List.all_cons, Bool.and_eq_true] at hcs
      obtain ⟨d, hd⟩ := hp c hcs.1
      obtain ⟨values, hvalues⟩ := ih hcs.2
      exact ⟨d :: values, .cons hd hvalues⟩
  obtain ⟨values, hvalues⟩ := hvalues ds h.2
  exact ⟨_, values, h.1, hvalues, rfl⟩

private theorem exists_digits_of_isDigit {ds : List Char} (h : ds ∈ Rule.run Char.isDigit) :
    ∃ n, Digits 10 ds n :=
  exists_digits_of_run (fun _ => exists_isDigit_decimal (Nat.le_refl _)) h

/-! ### Integers -/

private theorem unsigned_of_numeral {cs : List Char} (h : cs ∈ Rule.numeral .integer) :
    ∃ n, Unsigned cs n := by
  rcases h with hds | ⟨letter, digit, hdigit, _, rfl, hs, hhs, rfl⟩
  · obtain ⟨n, hn⟩ := exists_digits_of_isDigit hds
    exact ⟨n, ("", 10), by decide, "", by decide, cs, rfl, hn⟩
  · unfold Lexeme.radixDigit? at hdigit
    split at hdigit
    · cases hdigit
      obtain ⟨n, hn⟩ := exists_digits_of_run (fun _ => exists_isDigit_hex) hhs
      exact ⟨n, ("0x", 16), by decide, "", by decide, hs, rfl, hn⟩
    · cases hdigit
      obtain ⟨n, hn⟩ := exists_digits_of_run (fun _ => exists_isDigit_hex) hhs
      exact ⟨n, ("0X", 16), by decide, "", by decide, hs, rfl, hn⟩
    · cases hdigit
      obtain ⟨n, hn⟩ := exists_digits_of_run (fun _ => exists_isDigit_octal) hhs
      exact ⟨n, ("0o", 8), by decide, "", by decide, hs, rfl, hn⟩
    · cases hdigit
      obtain ⟨n, hn⟩ := exists_digits_of_run (fun _ => exists_isDigit_octal) hhs
      exact ⟨n, ("0O", 8), by decide, "", by decide, hs, rfl, hn⟩
    · cases hdigit
      obtain ⟨n, hn⟩ := exists_digits_of_run (fun _ => exists_isDigit_binary) hhs
      exact ⟨n, ("0b", 2), by decide, "", by decide, hs, rfl, hn⟩
    · cases hdigit
      obtain ⟨n, hn⟩ := exists_digits_of_run (fun _ => exists_isDigit_binary) hhs
      exact ⟨n, ("0B", 2), by decide, "", by decide, hs, rfl, hn⟩
    · cases hdigit

/-! ### Decimals -/

private theorem takeWhile_run {p : Char → Bool} {ds rest : List Char} (hds : ds.all p = true)
    (hrest : ∀ c ∈ rest.head?, p c = false) :
    (ds ++ rest).takeWhile p = ds ∧ (ds ++ rest).dropWhile p = rest := by
  have htake := Lexeme.takeWhile_append_of_all hds hrest
  refine ⟨htake, ?_⟩
  have hsplit := List.takeWhile_append_dropWhile (p := p) (l := ds ++ rest)
  rw [htake] at hsplit
  exact List.append_cancel_left hsplit

private theorem exponent_head {e : List Char} (h : e ∈ 1 + Rule.exponent) :
    ∀ c ∈ e.head?, Rule.Ends c := by
  rcases h with rfl | h
  · intro c hc
    exact absurd hc (Option.not_mem_none c)
  · have hends : ∀ c ∈ (e ++ []).head?, Rule.Ends c := Rule.exponent_ends h
    rwa [List.append_nil] at hends

private theorem unit_head {kind : NumberClass} {u : List Char} (h : u ∈ Rule.unit kind) :
    ∀ c ∈ u.head?, Rule.Ends c := by
  have hends : ∀ c ∈ (u ++ []).head?, Rule.Ends c := Rule.unit_ends h
  rwa [List.append_nil] at hends

private theorem fraction_head {f e : List Char} (hf : f ∈ 1 + Rule.fraction)
    (he : e ∈ 1 + Rule.exponent) :
    ∀ c ∈ (f ++ e).head?, c.isDigit = false := by
  rcases hf with rfl | hf
  · intro c hc
    exact (exponent_head he c hc).digit
  · obtain ⟨ds, -, rfl⟩ := Rule.mem_fraction.1 hf
    rintro _ ⟨⟩
    rfl

private theorem fraction_append {f e : List Char} (hf : f ∈ 1 + Rule.fraction)
    (he : e ∈ 1 + Rule.exponent) :
    ∃ behind, behind.all Char.isDigit = true ∧ fraction (f ++ e) = (behind, e) := by
  have hends := exponent_head he
  rcases hf with rfl | hf
  · refine ⟨[], rfl, ?_⟩
    rw [List.nil_append]
    unfold fraction
    split
    · exact absurd rfl (hends _ rfl).point
    · rfl
  · obtain ⟨ds, hds, rfl⟩ := Rule.mem_fraction.1 hf
    obtain ⟨htake, hdrop⟩ := takeWhile_run hds.2 fun c hc => (hends c hc).digit
    exact ⟨ds, hds.2, Prod.ext htake hdrop⟩

private theorem exponent?_unsigned {c : Char} (hc : c = 'e' ∨ c = 'E') {ds : List Char} {n : Nat}
    (h : Digits 10 ds n) :
    exponent? (c :: ds) = some (Int.ofNat n) := by
  have hdigits : (digits? 10 ds).map Int.ofNat = some (Int.ofNat n) := by
    rw [digits?_eq_some.mpr h, Option.map_some]
  rcases hc with rfl | rfl
  all_goals
    simp only [exponent?]
    split
    · obtain ⟨d, hd⟩ := h.isDigit_of_mem (List.mem_cons_self ..)
      cases digit?_of_isDigit hd
    · obtain ⟨d, hd⟩ := h.isDigit_of_mem (List.mem_cons_self ..)
      cases digit?_of_isDigit hd
    · exact hdigits

private theorem exists_exponent {e : List Char} (h : e ∈ 1 + Rule.exponent) :
    ∃ x, exponent? e = some x := by
  rcases h with rfl | h
  · exact ⟨0, rfl⟩
  · obtain ⟨c, sign, ds, hds, hc, hsign, rfl⟩ := Rule.mem_exponent.1 h
    obtain ⟨n, hn⟩ := exists_digits_of_isDigit hds
    rcases hsign with rfl | rfl | rfl
    · exact ⟨_, exponent?_unsigned hc hn⟩
    · refine ⟨Int.ofNat n, ?_⟩
      rcases hc with rfl | rfl <;> exact congrArg (Option.map Int.ofNat) (digits?_eq_some.mpr hn)
    · refine ⟨-Int.ofNat n, ?_⟩
      rcases hc with rfl | rfl <;>
        exact congrArg (Option.map (-Int.ofNat ·)) (digits?_eq_some.mpr hn)

private theorem exists_decimal {ds f e : List Char} (hds : ds ∈ Rule.run Char.isDigit)
    (hf : f ∈ 1 + Rule.fraction) (he : e ∈ 1 + Rule.exponent) :
    ∃ value, decimal? (ds ++ (f ++ e)) = some value := by
  obtain ⟨htake, hdrop⟩ := takeWhile_run hds.2 (fraction_head hf he)
  obtain ⟨behind, hbehind, hfraction⟩ := fraction_append hf he
  obtain ⟨x, hx⟩ := exists_exponent he
  have hall : ds ++ behind ∈ Rule.run Char.isDigit :=
    ⟨List.append_ne_nil_of_left_ne_nil hds.1 _, by rw [List.all_append, hds.2, hbehind]; rfl⟩
  obtain ⟨n, hn⟩ := exists_digits_of_isDigit hall
  refine ⟨(n, x - behind.length), ?_⟩
  simp only [decimal?, htake, hdrop, hfraction, digits?_eq_some.mpr hn, hx]
  rfl

private theorem exists_unsignedFloat {ds f e : List Char} (hds : ds ∈ Rule.run Char.isDigit)
    (hf : f ∈ 1 + Rule.fraction) (he : e ∈ 1 + Rule.exponent) (negative : Bool) :
    ∃ v, unsignedFloat? negative (ds ++ (f ++ e)) = some v := by
  obtain ⟨value, hvalue⟩ := exists_decimal hds hf he
  unfold unsignedFloat?
  dsimp only
  split
  · exact ⟨_, rfl⟩
  · split
    · exact ⟨_, rfl⟩
    · exact ⟨_, by rw [hvalue]; rfl⟩

private theorem float?_run {ds : List Char} (hds : ds ∈ Rule.run Char.isDigit) (rest : List Char) :
    float? (ds ++ rest) = unsignedFloat? false (ds ++ rest) := by
  obtain ⟨d, ds, rfl⟩ := List.exists_cons_of_ne_nil hds.1
  have hd : d.isDigit = true := (Bool.and_eq_true_iff.1 hds.2).1
  rw [List.cons_append]
  unfold float?
  split
  · cases ‹_ = _›
    cases hd
  · cases ‹_ = _›
    cases hd
  · rfl

/-! ### Floats -/

private theorem numeral_float {cs : List Char} (h : cs ∈ Rule.numeral .float) :
    ∃ ds ∈ Rule.run Char.isDigit, ∃ f ∈ 1 + Rule.fraction, ∃ e ∈ 1 + Rule.exponent,
    cs = ds ++ (f ++ e) := by
  rcases h with ⟨_, ⟨ds, hds, f, hf, rfl⟩, e, he, rfl⟩ | ⟨ds, hds, e, he, rfl⟩
  · exact ⟨ds, hds, f, .inr hf, e, he, List.append_assoc ..⟩
  · exact ⟨ds, hds, [], .inl rfl, e, .inr he, rfl⟩

theorem float_of_numeral {raw sign : String} (hsign : sign ∈ ["", "-"])
    (h : raw.toList ∈ Rule.numeral .float) :
    ∃ v, ∀ span, float (sign ++ raw) span = .ok v := by
  obtain ⟨ds, hds, f, hf, e, he, hraw⟩ := numeral_float h
  have hfloat : ∃ v, float? (sign.toList ++ raw.toList) = some v := by
    simp only [List.mem_cons, List.not_mem_nil, or_false] at hsign
    rw [hraw]
    rcases hsign with rfl | rfl
    · rw [show "".toList ++ (ds ++ (f ++ e)) = ds ++ (f ++ e) from rfl, float?_run hds]
      exact exists_unsignedFloat hds hf he false
    · exact exists_unsignedFloat hds hf he true
  obtain ⟨v, hv⟩ := hfloat
  exact ⟨v, fun span => by rw [float, String.toList_append, hv]⟩

/-! ### Durations and sizes -/

private theorem isMagnitude_eq_false {c : Char} (h : Rule.Ends c) : isMagnitude c = false := by
  rw [isMagnitude, h.digit, Bool.false_or, beq_eq_false_iff_ne]
  exact h.point

private theorem all_isMagnitude {ds : List Char} (h : ds.all Char.isDigit = true) :
    ds.all isMagnitude = true := by
  rw [List.all_eq_true] at h ⊢
  exact fun c hc => Bool.or_eq_true_iff.mpr (.inl (h c hc))

private theorem magnitude_all {ds f : List Char} (hds : ds ∈ Rule.run Char.isDigit)
    (hf : f ∈ 1 + Rule.fraction) :
    (ds ++ f).all isMagnitude = true := by
  rw [List.all_append, all_isMagnitude hds.2, Bool.true_and]
  rcases hf with rfl | hf
  · rfl
  · obtain ⟨behind, hbehind, rfl⟩ := Rule.mem_fraction.1 hf
    exact Bool.and_eq_true_iff.mpr ⟨rfl, all_isMagnitude hbehind.2⟩

private theorem quantity_of_magnitude {Unit : Type} {kind : NumberClass}
    {ofSuffix? : String → Option Unit} {noSuffix : NumberFault}
    (hunits : ∀ a ∈ NumberClass.units, a.2 = kind → (ofSuffix? a.1).isSome = true) {raw : String}
    (h : raw.toList ∈ Rule.run Char.isDigit * (1 + Rule.fraction) * Rule.unit kind) :
    ∃ v, ∀ span, quantity kind ofSuffix? noSuffix raw span = .ok v := by
  obtain ⟨_, ⟨ds, hds, f, hf, rfl⟩, u, hu, hraw⟩ := h
  obtain ⟨htake, hdrop⟩ := takeWhile_run (magnitude_all hds hf) fun c hc =>
    isMagnitude_eq_false (unit_head hu c hc)
  obtain ⟨unit, hunit⟩ := Option.isSome_iff_exists.mp (hunits _ hu rfl)
  obtain ⟨v, hv⟩ := exists_unsignedFloat hds hf (.inl rfl) false
  rw [List.append_nil, ← float?_run hds] at hv
  refine ⟨(v, unit), fun span => ?_⟩
  dsimp only at hraw
  rw [quantity, ← hraw, htake, hdrop, hunit]
  dsimp only
  rw [hv]

theorem duration_of_numeral {raw : String} (h : raw.toList ∈ Rule.numeral .duration) :
    ∃ v, ∀ span, duration raw span = .ok v :=
  quantity_of_magnitude (by decide) h

theorem size_of_numeral {raw : String} (h : raw.toList ∈ Rule.numeral .size) :
    ∃ v, ∀ span, size raw span = .ok v :=
  quantity_of_magnitude (by decide) h

end Numeral

open Numeral

/-- The decoder of the kind knows the text, an integer or a float also with a minus sign in front.
An integer is refused just where 64 bits do not hold its value. -/
def NumberClass.Decodes (text : String) : NumberClass → Prop
  | .integer => ∀ sign ∈ ["", "-"], (∃ v, Spells (sign ++ text).toList v) ∧
      ∀ v, Spells (sign ++ text).toList v → ∀ span, Numeral.integer (sign ++ text) span =
        if Fits v then .ok v else .error ⟨.invalidNumber .integer (sign ++ text) .outOfRange, span⟩
  | .float => ∀ sign ∈ ["", "-"], ∃ v, ∀ span, Numeral.float (sign ++ text) span = .ok v
  | .duration => ∃ v, ∀ span, Numeral.duration text span = .ok v
  | .size => ∃ v, ∀ span, Numeral.size text span = .ok v

namespace Numeral

theorem spells_of_numeral {raw sign : String} (hsign : sign ∈ ["", "-"])
    (h : raw.toList ∈ Rule.numeral .integer) :
    ∃ v, Spells (sign ++ raw).toList v := by
  obtain ⟨n, hn⟩ := unsigned_of_numeral h
  simp only [List.mem_cons, List.not_mem_nil, or_false] at hsign
  rw [String.toList_append]
  rcases hsign with rfl | rfl
  · exact ⟨_, .positive hn⟩
  · exact ⟨_, .negative hn⟩

private theorem Spells.unique {cs : List Char} {v w : Int} (hv : Spells cs v)
    (hw : Spells cs w) : v = w :=
  Option.some.inj ((integer?_eq_some.mpr hv).symm.trans (integer?_eq_some.mpr hw))

private theorem integer_of_spells {raw : String} {v : Int} (h : Spells raw.toList v) (span : Span) :
    integer raw span = if Fits v then .ok v else
      .error ⟨.invalidNumber .integer raw .outOfRange, span⟩ := by
  split
  · exact integer_eq_ok.mpr ⟨h, ‹_›⟩
  · rename_i hfits
    exact integer_eq_error.mpr ⟨rfl, fun w hw => hfits (h.unique hw.1 ▸ hw.2)⟩

theorem decodes_of_numeral {kind : NumberClass} {text : String}
    (h : text.toList ∈ Rule.numeral kind) :
    kind.Decodes text := by
  cases kind with
  | integer => exact fun _ hsign => ⟨spells_of_numeral hsign h, fun _ hv => integer_of_spells hv⟩
  | float => exact fun _ hsign => float_of_numeral hsign h
  | duration => exact duration_of_numeral h
  | size => exact size_of_numeral h

end Numeral

/-- The text of a number that the lexer has found fits the pattern of its kind. -/
theorem Lexer.tokenize_numeral {source : String} {offset : Nat} {t : Token}
    (ht : t ∈ (Lexer.ofString source offset).tokenize.1) {kind : NumberClass} {text : String}
    (hl : t.lexeme = .number kind text) : text.toList ∈ Rule.numeral kind := by
  have hspelled := (tokenize_wellSpelled _ _ t ht).resolve_left (by rw [hl]; simp)
  rwa [hl] at hspelled

end ApiScript
