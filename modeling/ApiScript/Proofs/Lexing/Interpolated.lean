import ApiScript.Proofs.Lexing.Enclosed
import ApiScript.Proofs.Lexing.Steps
import ApiScript.Proofs.Lexing.Element

set_option autoImplicit false
set_option relaxedAutoImplicit false

/-!
Embedded code ends where its tokens say: the scan for its closing brace passes the tokens of the
code one by one, and keeps the count of the braces that they open. The exception are byte strings,
which the scan reads as strings that can hold code, where that leads it to another end.
-/

namespace ApiScript

namespace Lexeme

def isInert (c : Char) : Bool := c != '{' && c != '}' && c != '"' && c != '\'' && c != '/'

structure Inert (n : Nat) (cs : List Char) : Prop where
  le : n ≤ cs.length
  inert : ∀ c ∈ cs.take n, isInert c = true

namespace Inert

private theorem zero (cs : List Char) : Inert 0 cs := ⟨Nat.zero_le _, by simp⟩

private theorem add {m n : Nat} {cs : List Char} (hm : Inert m cs) (hn : Inert n (cs.drop m)) :
    Inert (m + n) cs := by
  constructor
  · have := hm.le
    have := hn.le
    rw [List.length_drop] at this
    omega
  · intro c hc
    rw [List.take_add, List.mem_append] at hc
    exact hc.elim (hm.inert c) (hn.inert c)

private theorem cons {n : Nat} {c : Char} {cs : List Char} (hc : isInert c = true)
    (hn : Inert n cs) :
    Inert (n + 1) (c :: cs) := by
  refine ⟨Nat.succ_le_succ hn.le, fun d hd => ?_⟩
  rw [List.take_succ_cons] at hd
  rcases List.mem_cons.1 hd with rfl | hd
  · exact hc
  · exact hn.inert d hd

private theorem takeWhile {p : Char → Bool} {cs : List Char}
    (h : ∀ c, p c = true → isInert c = true) :
    Inert (cs.takeWhile p).length cs := by
  refine ⟨(List.takeWhile_prefix p).length_le, fun c hc => ?_⟩
  rw [take_takeWhile_length] at hc
  exact h c (List.all_eq_true.1 List.all_takeWhile c hc)

end Inert

private theorem isInert_of {p : Char → Bool} (hp : ['{', '}', '"', '\'', '/'].any p = false)
    {c : Char} (h : p c = true) : isInert c = true := by
  rw [List.any_eq_false] at hp
  simp only [isInert, Bool.and_eq_true, bne_iff_ne]
  refine ⟨⟨⟨⟨?_, ?_⟩, ?_⟩, ?_⟩, ?_⟩ <;>
  · rintro rfl
    exact hp _ (by simp) h

private theorem isInert_of_isWordPart {c : Char} (h : isWordPart c = true) : isInert c = true :=
  isInert_of (by decide) h

private theorem isInert_of_isDigit {c : Char} (h : c.isDigit = true) : isInert c = true :=
  isInert_of (by decide) h

private theorem isInert_of_radixDigit {letter : Char} {digit : Char → Bool}
    (h : radixDigit? letter = some digit) :
    isInert letter = true ∧ ∀ c, digit c = true → isInert c = true := by
  unfold radixDigit? at h
  split at h
  all_goals
    cases h
    try exact ⟨by decide, fun c => isInert_of (by decide)⟩

private theorem inert_radixLength {cs : List Char} {n : Nat} (h : radixLength? cs = some n) :
    Inert n cs := by
  unfold radixLength? at h
  split at h
  · obtain ⟨digit, hdigit, hn⟩ := Option.bind_eq_some_iff.1 h
    split at hn
    · cases hn
    · obtain ⟨hletter, hdigits⟩ := isInert_of_radixDigit hdigit
      cases hn
      exact .cons (by decide) (.cons hletter (.takeWhile hdigits))
  · cases h

theorem inert_fractionLength (cs : List Char) : Inert (fractionLength cs) cs := by
  unfold fractionLength
  split
  · split
    · exact .zero _
    · exact .cons (by decide) (.takeWhile fun _ => isInert_of_isDigit)
  · exact .zero _

theorem inert_signLength (cs : List Char) : Inert (signLength cs) cs := by
  unfold signLength
  split
  · exact .cons (by decide) (.zero _)
  · exact .cons (by decide) (.zero _)
  · exact .zero _

private theorem inert_exponentLength (cs : List Char) : Inert (exponentLength cs) cs := by
  have hdigits (ds : List Char) :
      Inert (runLength Char.isDigit (ds.drop (signLength ds)) + signLength ds) ds := by
    rw [Nat.add_comm]
    exact .add (inert_signLength ds) (.takeWhile fun _ => isInert_of_isDigit)
  unfold exponentLength
  split
  · dsimp only
    split
    · exact .zero _
    · exact .cons (by decide) (hdigits _)
  · dsimp only
    split
    · exact .zero _
    · exact .cons (by decide) (hdigits _)
  · exact .zero _

private theorem inert_unit {cs : List Char} {kind : NumberClass} {n : Nat}
    (h : NumberClass.unit? cs = some (kind, n)) :
    Inert n cs := by
  obtain ⟨⟨suffix, kind⟩, hunit, hn⟩ := Option.map_eq_some_iff.1 h
  cases hn
  have hstarts : suffix.toList <+: cs := by simpa using List.find?_some hunit
  have hlength := hstarts.length_le
  rw [List.prefix_iff_eq_take, String.length_toList] at hstarts
  have hinert : (NumberClass.units.all fun unit => unit.1.toList.all isInert) = true := by decide
  have hsuffix := List.all_eq_true.1 hinert _ (List.mem_of_find?_eq_some hunit)
  exact ⟨hlength, fun c hc => List.all_eq_true.1 hsuffix c (hstarts ▸ hc)⟩

theorem inert_numberLength (cs : List Char) : Inert (numberLength cs).2 cs := by
  unfold numberLength
  split
  · rename_i n hn
    exact inert_radixLength hn
  · have hdecimal :
        Inert (runLength Char.isDigit cs + fractionLength (cs.drop (runLength Char.isDigit cs)))
          cs :=
      .add (.takeWhile fun _ => isInert_of_isDigit) (inert_fractionLength _)
    dsimp only
    split
    · rename_i kind n hn
      exact hdecimal.add (inert_unit hn)
    · exact hdecimal.add (inert_exponentLength _)

private theorem scanDelimited_length_le {make : String → Lexeme} {fault : LexicalFault}
    {enclosure : Enclosure} {opener : Nat} {cs : List Char} (h : opener ≤ cs.length) :
    (scanDelimited make fault enclosure opener cs).2 ≤ cs.length := by
  unfold scanDelimited
  split
  · rename_i n hn
    have hle := Enclosure.closing?_le hn
    rw [List.length_drop] at hle
    dsimp only
    omega
  · exact Nat.le_refl _

theorem scan_length_le (c : Char) (cs : List Char) : (scan c cs).2 ≤ (c :: cs).length := by
  have hone : 1 ≤ (c :: cs).length := Nat.succ_le_succ (Nat.zero_le _)
  have htwo {d : Char} (h : cs.head? = some d) : 2 ≤ (c :: cs).length := by
    obtain ⟨cs, rfl⟩ := List.head?_eq_some_iff.1 h
    exact Nat.succ_le_succ (Nat.succ_le_succ (Nat.zero_le _))
  unfold scan
  dsimp only
  split
  · exact (inert_numberLength _).le
  split
  · exact scanDelimited_length_le hone
  split
  · exact scanDelimited_length_le hone
  split
  · rename_i h
    exact scanDelimited_length_le (htwo h.2)
  split
  · exact (List.takeWhile_prefix _).length_le
  split
  · exact (List.takeWhile_prefix _).length_le
  split
  · rename_i h
    exact scanDelimited_length_le (htwo h.2)
  split
  · rename_i s hs
    have hstarts : s.spelling.toList <+: c :: cs := by simpa using List.find?_some hs
    exact hstarts.length_le
  · exact hone

private theorem isInert_symbol {s : Symbol} (hopen : s ≠ .leftBrace) (hclose : s ≠ .rightBrace)
    (hslash : s ≠ .slash) :
    ∀ c ∈ s.spelling.toList, isInert c = true := by
  have hinert : s.spelling.toList.all isInert = true := by
    cases s <;> first | contradiction | decide
  exact List.all_eq_true.1 hinert

end Lexeme

namespace Enclosure

variable {opened : Nat} {es : List Enclosure} {rest : List Char}

private theorem closing?_code_inert {n : Nat} {cs : List Char} (h : Lexeme.Inert n cs) :
    closing? (.code opened :: es) (cs ++ rest) =
      (closing? (.code opened :: es) (cs.drop n ++ rest)).map (· + n) := by
  induction n generalizing cs with
  | zero => simp
  | succ n ih =>
    cases cs with
    | nil => exact absurd h.le (Nat.not_succ_le_zero n)
    | cons c cs =>
      have hc := h.inert c List.mem_cons_self
      simp only [Lexeme.isInert, Bool.and_eq_true, bne_iff_ne] at hc
      obtain ⟨⟨⟨⟨hopen, hclose⟩, hdouble⟩, hsingle⟩, hslash⟩ := hc
      have hrest : Lexeme.Inert n cs :=
        ⟨Nat.le_of_succ_le_succ h.le, fun d hd => h.inert d (List.mem_cons_of_mem c hd)⟩
      rw [List.cons_append, closing?_code_pass hopen hclose hdouble hsingle fun hc =>
        absurd hc hslash, ih hrest, map_add_map_add, List.drop_succ_cons]

theorem closing?_lineComment {cs : List Char} (h : cs.drop (cs.takeWhile (· != '\n')).length ≠ []) :
    closing? (.lineComment :: .code opened :: es) (cs ++ rest) =
      (closing? (.code opened :: es) (cs.drop (cs.takeWhile (· != '\n')).length ++ rest)).map
        (· + (cs.takeWhile (· != '\n')).length) := by
  induction cs with
  | nil => exact absurd rfl h
  | cons c cs ih =>
    by_cases hc : c = '\n'
    · subst hc
      simp only [List.takeWhile_cons, bne_self_eq_false, Bool.false_eq_true, ↓reduceIte,
        List.length_nil, List.drop_zero, Nat.add_zero, Option.map_id', List.cons_append, closing?]
      exact (closing?_code_pass (by decide) (by decide) (by decide) (by decide) fun h =>
        absurd h (by decide)).symm
    · simp only [List.takeWhile_cons, bne_iff_ne, ne_eq, hc, not_false_eq_true, ↓reduceIte,
        List.length_cons, List.drop_succ_cons, List.cons_append, closing?] at h ⊢
      rw [ih h, map_add_map_add]

private theorem closing?_enclosed {e : Enclosure} {cs : List Char} {opener n : Nat}
    (hopener : closing? es (cs ++ rest) = (closing? (e :: es) (cs.drop opener ++ rest)).map
      (· + opener)) (hcloser : closing? [e] (cs.drop opener) = some n) :
    closing? es (cs ++ rest) = (closing? es (cs.drop (opener + n) ++ rest)).map
        (· + (opener + n)) := by
  rw [hopener, ← List.singleton_append, closing?_append hcloser, map_add_map_add, List.drop_drop,
    Nat.add_comm n]

end Enclosure

namespace Lexeme

/-- What is open behind a lexeme of embedded code that has `opened` braces open. -/
private def enclosures (opened : Nat) (outer : List Enclosure) : Lexeme → List Enclosure
  | symbol .leftBrace => .code (opened + 1) :: outer
  | symbol .rightBrace => if opened = 0 then outer else .code (opened - 1) :: outer
  | _ => .code opened :: outer

/-- Whether the lexeme is a byte string that does not end where a string with code in it would. -/
def Misread : Lexeme → Prop
  | string .bytes raw =>
    Enclosure.closing? [.text] (raw.toList.drop 2) ≠ some (raw.toList.length - 2)
  | _ => False

instance Misread.decide : (l : Lexeme) → Decidable l.Misread
  | string .bytes raw =>
    inferInstanceAs
      (Decidable (Enclosure.closing? [.text] (raw.toList.drop 2) ≠ some (raw.toList.length - 2)))
  | string .interpolated _ | string .simple _ | keyword _ | symbol _ | number _ _ | identifier
    _ | comment _ _
  | invalid => inferInstanceAs (Decidable False)

def isLineComment : Lexeme → Bool
  | comment .line _ => true
  | _ => false

private theorem scanDelimited_closing? {make : String → Lexeme} {fault : LexicalFault}
    {enclosure : Enclosure} {opener : Nat} {cs : List Char} {l : Lexeme} {n : Nat}
    (h : scanDelimited make fault enclosure opener cs = (.ok l, n)) :
    ∃ m, Enclosure.closing? [enclosure] (cs.drop opener) = some m ∧ n = opener + m ∧
      l = make (String.ofList (cs.take n)) := by
  have hl := scanDelimited_ok h
  unfold scanDelimited at h
  split at h
  · rename_i m hm
    exact ⟨m, hm, (Prod.mk.inj h).2.symm, hl⟩
  · cases (Prod.mk.inj h).1

private theorem enclosures_ofWord (opened : Nat) (outer : List Enclosure) (word : String) :
    (ofWord word).enclosures opened outer = .code opened :: outer := by
  unfold ofWord
  split <;> rfl

open Enclosure in
private theorem closing?_symbol {cs rest : List Char} {s : Symbol} {opened : Nat}
    {outer : List Enclosure} (h : symbol? cs = some s)
    (hcomment : cs.head? = some '/' → cs.tail.head? ≠ some '/' ∧ cs.tail.head? ≠ some '*')
    (hrest : rest.head? ≠ some '/' ∧ rest.head? ≠ some '*') :
    closing? (.code opened :: outer) (cs ++ rest) =
      (closing? ((symbol s).enclosures opened outer) (cs.drop s.spelling.length ++ rest)).map
        (· + s.spelling.length) := by
  have hstarts : s.spelling.toList <+: cs := by simpa using List.find?_some h
  obtain ⟨behind, rfl⟩ := hstarts
  by_cases hopen : s = .leftBrace
  · subst hopen
    rfl
  by_cases hclose : s = .rightBrace
  · subst hclose
    rfl
  by_cases hslash : s = .slash
  · subst hslash
    obtain ⟨hline, hblock⟩ := hcomment rfl
    refine closing?_code_pass (by decide) (by decide) (by decide) (by decide) fun _ => ?_
    cases behind with
    | nil => exact hrest
    | cons d behind => exact ⟨hline, hblock⟩
  · have hinert : Inert s.spelling.length (s.spelling.toList ++ behind) := by
      rw [← String.length_toList]
      refine ⟨by simp, fun c hc => isInert_symbol hopen hclose hslash c ?_⟩
      rwa [List.take_left] at hc
    have henclosures : (symbol s).enclosures opened outer = .code opened :: outer := by
      cases s <;> first | contradiction | rfl
    rw [henclosures]
    exact closing?_code_inert hinert

open Enclosure in
/-- In embedded code, the scan for the closing brace passes a lexeme. -/
private theorem closing?_scan {c : Char} {cs rest : List Char} {l : Lexeme} {n opened : Nat}
    {outer : List Enclosure} (h : scan c cs = (.ok l, n)) (hbytes : ¬l.Misread)
    (hline : l.isLineComment = true → (c :: cs).drop n ≠ [])
    (hrest : rest.head? ≠ some '/' ∧ rest.head? ≠ some '*') :
    closing? (.code opened :: outer) (c :: cs ++ rest) =
      (closing? (l.enclosures opened outer) ((c :: cs).drop n ++ rest)).map (· + n) := by
  unfold scan at h
  dsimp only at h
  split at h
  · obtain ⟨hl, rfl⟩ := Prod.mk.inj h
    rw [← Except.ok.inj hl]
    exact closing?_code_inert (inert_numberLength _)
  split at h
  · rename_i hc
    obtain ⟨m, hm, rfl, rfl⟩ := scanDelimited_closing? h
    refine closing?_enclosed ?_ hm
    rw [hc, List.cons_append, closing?]
    rfl
  split at h
  · rename_i hc
    obtain ⟨m, hm, rfl, rfl⟩ := scanDelimited_closing? h
    refine closing?_enclosed ?_ hm
    rw [hc, List.cons_append, closing?]
    rfl
  split at h
  · rename_i hc
    obtain ⟨m, hm, rfl, rfl⟩ := scanDelimited_closing? h
    obtain ⟨rfl, hquote⟩ := hc
    obtain ⟨cs, rfl⟩ := List.head?_eq_some_iff.1 hquote
    have hend : closing? [.text] cs = some m := by
      have hle : m ≤ cs.length := closing?_le hm
      have htake := Decidable.not_not.1 hbytes
      simp only [String.toList_ofList, Nat.add_comm 2, List.take_succ_cons, List.drop_succ_cons,
        List.drop_zero, List.length_cons, List.length_take, Nat.min_eq_left hle] at htake
      have happend : closing? [.text] (cs.take m ++ cs.drop m) = some m :=
        closing?_append_of_some htake (cs.drop m)
      rwa [List.take_append_drop] at happend
    refine closing?_enclosed (e := .text) ?_ hend
    rw [List.cons_append, closing?_code_pass (by decide) (by decide) (by decide) (by decide)
      (fun hb => absurd hb (by decide)), List.cons_append, closing?, map_add_map_add]
    rfl
  split at h
  · obtain ⟨hl, rfl⟩ := Prod.mk.inj h
    rw [← Except.ok.inj hl, enclosures_ofWord]
    exact closing?_code_inert (.takeWhile fun _ => isInert_of_isWordPart)
  split at h
  · rename_i hc
    obtain ⟨hl, rfl⟩ := Prod.mk.inj h
    obtain ⟨rfl, hslash⟩ := hc
    obtain ⟨cs, rfl⟩ := List.head?_eq_some_iff.1 hslash
    rw [← Except.ok.inj hl] at hline ⊢
    have hbreak := hline rfl
    simp only [List.takeWhile_cons, (by decide : ('/' != '\n') = true), ↓reduceIte,
      List.length_cons, List.drop_succ_cons] at hbreak ⊢
    rw [List.cons_append, List.cons_append, closing?, closing?_lineComment hbreak, map_add_map_add]
    rfl
  split at h
  · rename_i hc
    obtain ⟨m, hm, rfl, rfl⟩ := scanDelimited_closing? h
    obtain ⟨rfl, hstar⟩ := hc
    obtain ⟨cs, rfl⟩ := List.head?_eq_some_iff.1 hstar
    refine closing?_enclosed ?_ hm
    rw [List.cons_append, List.cons_append, closing?]
    rfl
  split at h
  · rename_i hnoLine hnoBlock _ s hs
    obtain ⟨hl, rfl⟩ := Prod.mk.inj h
    rw [← Except.ok.inj hl]
    refine closing?_symbol hs (fun hc => ?_) hrest
    have hslash : c = '/' := Option.some.inj hc
    exact ⟨fun hd => hnoLine ⟨hslash, hd⟩, fun hd => hnoBlock ⟨hslash, hd⟩⟩
  · cases (Prod.mk.inj h).1

/-- The braces of `ls` are balanced where `pending` braces stand open in front of them. -/
structure BracesBalanced (pending : Nat) (ls : List Lexeme) : Prop where
  prefixes : ∀ n ≤ ls.length,
    (ls.take n).count (symbol .rightBrace) ≤ pending + (ls.take n).count (symbol .leftBrace)
  total : ls.count (symbol .rightBrace) = pending + ls.count (symbol .leftBrace)

instance (pending : Nat) (ls : List Lexeme) : Decidable (BracesBalanced pending ls) :=
  decidable_of_iff (_ ∧ _) ⟨fun h => ⟨h.1, h.2⟩, fun h => ⟨h.1, h.2⟩⟩

private theorem BracesBalanced.behind {pending : Nat} {l : Lexeme} {ls : List Lexeme}
    (h : BracesBalanced pending (l :: ls)) (outer : List Enclosure) :
    ∃ pending', l.enclosures pending outer = .code pending' :: outer ∧
    BracesBalanced pending' ls := by
  have hprefixes (n : Nat) (hn : n ≤ ls.length) := h.prefixes (n + 1) (Nat.succ_le_succ hn)
  have htotal := h.total
  simp only [List.take_succ_cons, List.count_cons] at hprefixes htotal
  by_cases hopen : l = symbol .leftBrace
  · subst hopen
    refine ⟨pending + 1, rfl, fun n hn => ?_, ?_⟩
    · simpa [Nat.add_assoc, Nat.add_comm 1] using hprefixes n hn
    · simpa [Nat.add_assoc, Nat.add_comm 1] using htotal
  by_cases hclose : l = symbol .rightBrace
  · subst hclose
    have hpending : 1 ≤ pending := by simpa using hprefixes 0 (Nat.zero_le _)
    refine ⟨pending - 1, if_neg (Nat.ne_of_gt hpending), fun n hn => ?_, ?_⟩
    · have := hprefixes n hn
      simp at this
      omega
    · simp at htotal
      omega
  · have henclosures : l.enclosures pending outer = .code pending :: outer := by
      unfold enclosures
      split <;> first | contradiction | rfl
    refine ⟨pending, henclosures, fun n hn => ?_, ?_⟩
    · simpa [hopen, hclose] using hprefixes n hn
    · simpa [hopen, hclose] using htotal

end Lexeme

namespace Lexer

/-- What is left to be read can stand in embedded code that has `pending` braces open: it has no
errors, balanced braces, no byte string that the scan of code ends elsewhere, and no line comment at
its very end. -/
structure Embeddable (pending : Nat) (l : Lexer) : Prop where
  noErrors : l.tokenize.2 = []
  balanced : Lexeme.BracesBalanced pending (l.tokenize.1.map (·.lexeme))
  bytes : ∀ t ∈ l.tokenize.1, ¬t.lexeme.Misread
  last : ∀ t ∈ l.tokenize.1.getLast?, t.lexeme.isLineComment = true →
    t.span.stop ≠ l.offset + Text.byteSize l.rest

instance (pending : Nat) (l : Lexer) : Decidable (Embeddable pending l) :=
  decidable_of_iff (_ ∧ _ ∧ _ ∧ _) ⟨fun h => ⟨h.1, h.2.1, h.2.2.1, h.2.2.2⟩, fun h =>
    ⟨h.1, h.2, h.3, h.4⟩⟩

namespace Embeddable

variable {pending offset : Nat} {c : Char} {cs : List Char}

private theorem blank (hc : Lexeme.isBlank c = true) (h : Embeddable pending ⟨c :: cs, offset⟩) :
    Embeddable pending ⟨cs, offset + c.utf8Size⟩ := by
  obtain ⟨hnoErrors, hbalanced, hbytes, hlast⟩ := h
  rw [tokenize_blank hc] at hnoErrors hbalanced hbytes hlast
  refine ⟨hnoErrors, hbalanced, hbytes, fun t ht hl => ?_⟩
  rw [Nat.add_assoc]
  exact hlast t ht hl

private theorem scan (hc : Lexeme.isBlank c = false) (h : Embeddable pending ⟨c :: cs, offset⟩)
    (outer : List Enclosure) :
    ∃ l n pending', Lexeme.scan c cs = (.ok l, n) ∧ ¬l.Misread ∧
      (l.isLineComment = true → (c :: cs).drop n ≠ []) ∧
      l.enclosures pending outer = .code pending' :: outer ∧
      Embeddable pending' ⟨(c :: cs).drop n, offset + Text.byteSize ((c :: cs).take n)⟩ := by
  obtain ⟨hnoErrors, hbalanced, hbytes, hlast⟩ := h
  have hsize (n : Nat) : Text.byteSize ((c :: cs).take n) + Text.byteSize ((c :: cs).drop n) =
      Text.byteSize (c :: cs) := by rw [← Text.byteSize_append, List.take_append_drop]
  cases hscan : Lexeme.scan c cs with
  | mk found n =>
    cases found with
    | error fault =>
      rw [tokenize_error hc hscan] at hnoErrors
      cases hnoErrors
    | ok l =>
      rw [tokenize_ok hc hscan] at hnoErrors hbalanced hbytes hlast
      obtain ⟨pending', henclosures, hbalanced'⟩ := hbalanced.behind outer
      refine ⟨l, n, pending', rfl, hbytes _ List.mem_cons_self, fun hl hdrop => ?_, henclosures,
        hnoErrors, hbalanced', fun t ht => hbytes t (List.mem_cons_of_mem _ ht), fun t ht hl => ?_⟩
      · rw [hdrop] at hlast
        refine hlast _ rfl hl ?_
        rw [← hsize n, hdrop]
        rfl
      · rw [Nat.add_assoc, hsize n]
        exact hlast t (by rw [List.getLast?_cons, ht]; rfl) hl

end Embeddable

/-- Embeddable code ends at its closing brace. -/
theorem Embeddable.closing? {pending offset : Nat} {cs : List Char}
    (h : Embeddable pending ⟨cs, offset⟩) (outer : List Enclosure) (rest : List Char) :
    Enclosure.closing? (.code pending :: outer) (cs ++ '}' :: rest) =
      (Enclosure.closing? outer rest).map (· + (cs.length + 1)) := by
  induction cs using text_induction generalizing pending offset with
  | nil =>
    have hpending : pending = 0 := by simpa using h.balanced.total.symm
    rw [hpending, List.nil_append, Enclosure.closing?, if_pos rfl]
    rfl
  | blank c cs hc ih =>
    have hblank : Lexeme.Inert 1 (c :: cs) := .cons (Lexeme.isInert_of (by decide) hc) (.zero cs)
    have hpass := @Enclosure.closing?_code_inert pending outer ('}' :: rest) 1 (c :: cs) hblank
    rw [hpass, List.drop_succ_cons, List.drop_zero, ih (h.blank hc), Enclosure.map_add_map_add]
    rfl
  | scan c cs hc ih =>
    obtain ⟨l, n, pending', hscan, hbytes, hline, henclosures, hrest⟩ := h.scan hc outer
    rw [hscan] at ih
    rw [Lexeme.closing?_scan hscan hbytes hline ⟨by simp, by simp⟩, henclosures, ih hrest,
      Enclosure.map_add_map_add]
    have hlength := Lexeme.scan_length_le c cs
    simp only [hscan, List.length_drop] at hlength ⊢
    rw [show (c :: cs).length - n + 1 + n = (c :: cs).length + 1 by omega]

end Lexer

namespace Quoted

def embed (source : String) : String := "\"$\x7b" ++ source ++ "\x7d\""

private theorem embed_toList (source : String) :
    (embed source).toList = '"' :: '$' :: '{' :: (source.toList ++ ['}', '"']) := by
  simp [embed]

variable {source : String}

private theorem scan_embed (h : (Lexer.ofString source 0).Embeddable 0) :
    Lexeme.scan '"' ('$' :: '{' :: (source.toList ++ ['}', '"'])) =
      (.ok (.string .interpolated (embed source)), (embed source).toList.length) := by
  have hclosing := h.closing? [.text] ['"']
  have hbody : Enclosure.closing? [.text] ('$' :: '{' :: (source.toList ++ ['}', '"'])) =
      some (source.toList.length + 4) := by
    rw [Enclosure.closing?]
    exact (congrArg (Option.map (· + 2)) hclosing).trans (by simp [Enclosure.closing?]; omega)
  have hlength : (embed source).toList.length = 1 + (source.toList.length + 4) := by
    simp only [embed_toList, List.length_cons, List.length_append, List.length_nil]
    omega
  have hscan : Lexeme.scan '"' ('$' :: '{' :: (source.toList ++ ['}', '"'])) =
      Lexeme.scanDelimited (.string .interpolated) (.unterminatedString '"') .text 1
        (embed source).toList := by
    rw [embed_toList]
    rfl
  rw [hscan, Lexeme.scanDelimited, embed_toList, List.drop_succ_cons, List.drop_zero, hbody,
    ← embed_toList, hlength]
  dsimp only
  rw [← hlength, List.take_length, String.ofList_toList]

private theorem split_embed (h : (Lexer.ofString source 0).Embeddable 0) (span : Span) :
    split (embed source) span = .ok [.code source (span.start + 3)] := by
  have hclosing :
      Enclosure.closing? [.code 0] (source.toList ++ ['}']) = some (source.toList.length + 1) := by
    simpa [Enclosure.closing?, Lexer.ofString] using h.closing? [] []
  have hlast :
      ('$' :: '{' :: (source.toList ++ ['}', '"'])) = '$' :: '{' :: (source.toList ++ ['}']) ++
        ['"'] := by
    simp
  have hbody :
      unquote? '"' (embed source).toList = some ('$' :: '{' :: (source.toList ++ ['}'])) := by
    rw [embed_toList, unquote?, hlast, List.getLast?_concat, if_pos ⟨rfl, rfl⟩,
      List.dropLast_concat]
  rw [split, hbody]
  dsimp only
  rw [splitFrom_nil]
  have helements :
      elements (some (unterminated '"' span)) (span.start + 1)
          ('$' :: '{' :: (source.toList ++ ['}'])) =
        .ok [.code source (span.start + 3)] := by
    rw [elements, List.length_cons, elementsWithin, hclosing]
    dsimp only
    rw [List.drop_of_length_le (by simp), elementsWithin_nil, Nat.add_sub_cancel, List.take_left,
      String.ofList_toList]
    rfl
  rw [helements]
  rfl

end Quoted

open Quoted in
/-- A text that can stand in embedded code is the one segment of the one token that a string around
it lexes as. -/
theorem embed_one_token {source : String} (h : (Lexer.ofString source 0).Embeddable 0) :
    (Lexer.ofString (embed source) 0).tokenize =
        ([⟨.string .interpolated (embed source), ⟨0, (embed source).utf8ByteSize⟩⟩], []) ∧
      split (embed source) ⟨0, (embed source).utf8ByteSize⟩ = .ok [.code source 3] := by
  refine ⟨?_, split_embed h _⟩
  rw [Lexer.ofString, embed_toList, Lexer.tokenize_ok (by decide) (scan_embed h), ← embed_toList,
    List.drop_length, List.take_length, Lexer.tokenize_nil, ← Text.utf8ByteSize_eq, Nat.zero_add]

/-- Braces, quotes and byte strings in the code, and a line comment in front of its end. -/
theorem embed_one_token_of_object :
    let source := "f(\x7b a: '\x7d', b: b\"\\\"$\x7b\x7d\" \x7d) // \x7d\n"
    (Lexer.ofString source 0).Embeddable 0 ∧
      (Lexer.ofString (Quoted.embed source) 0).tokenize =
        ([⟨.string .interpolated (Quoted.embed source), ⟨0, (Quoted.embed source).utf8ByteSize⟩⟩],
        []) ∧
      Quoted.split (Quoted.embed source) ⟨0, (Quoted.embed source).utf8ByteSize⟩ =
          .ok [.code source 3] :=
  ⟨by decide +kernel, embed_one_token (by decide +kernel)⟩

/-- Where a byte string holds a dollar sign and a brace that is left open, it is a token of its own,
but the string around it does not end. -/
theorem embed_bytes_unterminated :
    let source := "b\"$\x7b\""
    (Lexer.ofString source 0).tokenize = ([⟨.string .bytes source, ⟨0, 5⟩⟩], []) ∧
      (Lexer.ofString (Quoted.embed source) 0).tokenize =
        ([⟨.invalid, ⟨0, 10⟩⟩], [⟨.unterminatedString '"', ⟨0, 10⟩⟩]) := by
  decide +kernel

end ApiScript
