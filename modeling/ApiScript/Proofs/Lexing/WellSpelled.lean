import ApiScript.Proofs.Lexing.Elements
import ApiScript.Proofs.Lexing.Lines
import ApiScript.Proofs.Lexing.Stops
import Mathlib.Data.List.TakeWhile

set_option autoImplicit false
set_option relaxedAutoImplicit false

/-!
The texts that lexemes are written as: the lexer reads each of them back, and it reads lexemes on
lines of their own one by one.
-/

namespace ApiScript

namespace Enclosure

private theorem closing?_blockComment_eq_length (body : List Char) :
    closing? [.blockComment] body = some body.length ↔ ['*', '/'] <:+ body ∧
    ¬['*', '/'] <:+: body.dropLast := by
  induction body with
  | nil => simp [closing?_nil]
  | cons c cs ih =>
    by_cases hclose : c = '*' ∧ cs.head? = some '/'
    · obtain ⟨rfl, hhead⟩ := hclose
      obtain ⟨r, rfl⟩ := List.head?_eq_some_iff.1 hhead
      cases r with
      | nil => simp [closing?, List.infix_cons_iff]
      | cons d r => simp [closing?, List.infix_cons_iff]
    · have hpass : c = '*' → cs.head? ≠ some '/' := fun hc hhead => hclose ⟨hc, hhead⟩
      have hfirst (ds : List Char) (hds : ds <+: cs) : ¬['*', '/'] <+: c :: ds := by
        rintro ⟨r, hr⟩
        obtain ⟨rfl, rfl⟩ := List.cons.inj hr
        obtain ⟨r', rfl⟩ := hds
        exact hpass rfl rfl
      have hsuffix : ['*', '/'] <:+ c :: cs ↔ ['*', '/'] <:+ cs := by
        rw [List.suffix_cons_iff]
        exact or_iff_right fun heq =>
          hfirst cs (List.prefix_refl cs) ⟨[], by rw [List.append_nil, heq]⟩
      rw [closing?_blockComment_pass hpass, List.length_cons, Option.map_eq_some_iff]
      simp only [Nat.add_right_cancel_iff, exists_eq_right, ih, hsuffix]
      cases cs with
      | nil => simp
      | cons d cs =>
        rw [List.dropLast_cons_cons, List.infix_cons_iff,
          or_iff_right (hfirst _ (List.dropLast_prefix _))]

end Enclosure

namespace Rule

open Lexeme

private theorem not_isBlank_of_isDigit {c : Char} (h : c.isDigit = true) : isBlank c = false := by
  rw [Bool.eq_false_iff]
  intro hblank
  simp only [isBlank, Bool.or_eq_true, beq_iff_eq] at hblank
  rcases hblank with (((rfl | rfl) | rfl) | rfl) | rfl <;> cases h

private theorem pattern_not_blank {r : Rule} {front : List Char} (h : front ∈ r.pattern) :
    ∃ c behind, front = c :: behind ∧ isBlank c = false := by
  obtain ⟨c, behind, rfl, hhead⟩ := pattern_head h
  refine ⟨c, behind, rfl, ?_⟩
  cases r with
  | keyword k => exact not_isBlank_of_isWordStart hhead
  | identifier => exact not_isBlank_of_isWordStart hhead
  | number kind => exact not_isBlank_of_isDigit hhead
  | symbol s =>
    obtain ⟨d, rest, hspelling, hblank, -⟩ := symbol_first s
    rw [pattern, hspelling] at h
    rwa [(List.cons.inj (Set.mem_singleton_iff.1 h)).1]
  | string kind => cases kind <;> · cases hhead; rfl
  | comment kind =>
    cases hhead
    rfl

private theorem string_wins_opener (kind : StringClass) (body : List Char) :
    (string kind).Wins (kind.opener ++ body) kind.opener.length := by
  cases kind with
  | interpolated => exact string_wins .double body
  | simple => exact string_wins .single body
  | bytes => exact bytes_wins body

end Rule

namespace Lexeme

/-- The lexeme is written as lexemes of its kind are. A delimited text ends with its own closer. -/
def WellSpelled : Lexeme → Prop
  | keyword _ | symbol _ => True
  | number kind text => text.toList ∈ Rule.numeral kind
  | string kind text =>
    ∃ body, text.toList = kind.opener ++ body ∧
      Enclosure.closing? [kind.enclosure] body = some body.length
  | identifier text => IsIdentifier text
  | comment .line text => ∃ body, text.toList = '/' :: '/' :: body ∧ '\n' ∉ body
  | comment .block text =>
    ∃ body, text.toList = '/' :: '*' :: body ∧ ['*', '/'] <:+ body ∧ ¬['*', '/'] <:+: body.dropLast
  | invalid => False

private theorem Legible.of_wins {l : Lexeme} {r : Rule} {c : Char} {cs rest : List Char} {n : Nat}
    (hspelling : l.spelling.toList = c :: cs) (hwins : r.Wins (c :: (cs ++ rest)) n)
    (hread : r.read (c :: (cs ++ rest)) n = (.ok l, l.spelling.toList.length)) :
    l.Legible rest := by
  obtain ⟨front, behind, htext, -, hmem⟩ := hwins.fits
  obtain ⟨d, front, rfl, hblank⟩ := Rule.pattern_not_blank hmem
  obtain rfl : c = d := (List.cons.inj htext).1
  exact ⟨c, cs, hspelling, hblank, by rw [scan_of_wins hwins, hread]⟩

private theorem scanDelimited_closed {make : String → Lexeme} {fault : LexicalFault}
    {enclosure : Enclosure} (opener : List Char) {body : List Char}
    (h : Enclosure.closing? [enclosure] body = some body.length) (rest : List Char) :
    scanDelimited make fault enclosure opener.length (opener ++ (body ++ rest)) =
      (.ok (make (String.ofList (opener ++ body))), (opener ++ body).length) := by
  rw [scanDelimited, List.drop_left, Enclosure.closing?_append_of_some h rest]
  simp only [← List.length_append, ← List.append_assoc, List.take_left]

/-- The spelling of a lexeme is read as the lexeme, in front of what does not run into it. -/
theorem WellSpelled.legible {l : Lexeme} {rest : List Char} (h : l.WellSpelled)
    (hrest : l.Stops rest) :
    l.Legible rest := by
  cases l with
  | keyword k =>
    have hk : ofWord k.spelling = .keyword k := by rw [ofWord, Rule.ofSpelling?_spelling]
    exact hk ▸ legible_ofWord (Rule.keyword_word k) hrest
  | symbol s => exact legible_symbol s hrest
  | number kind text =>
    obtain ⟨c, cs, htext, hdigit⟩ := Rule.numeral_head h
    have hlength : numberLength (c :: (cs ++ rest)) = (kind, text.toList.length) := by
      rw [← List.cons_append, ← htext]
      exact Rule.numberLength_append h hrest
    have hwins := Rule.number_wins hdigit (cs ++ rest)
    rw [hlength] at hwins
    refine .of_wins htext hwins ?_
    rw [Rule.read, ← List.cons_append, ← htext, List.take_left, String.ofList_toList]
    rfl
  | string kind text =>
    obtain ⟨body, htext, hbody⟩ := h
    obtain ⟨c, opener, hopener⟩ : ∃ c cs, kind.opener = c :: cs := by
      cases kind <;> exact ⟨_, _, rfl⟩
    have hwhole : text.toList ++ rest = kind.opener ++ (body ++ rest) := by
      rw [htext, List.append_assoc]
    have hspelling : text.toList = c :: (opener ++ body) := by rw [htext, hopener, List.cons_append]
    have hwins := Rule.string_wins_opener kind (body ++ rest)
    rw [← hwhole, hspelling, List.cons_append] at hwins
    refine .of_wins hspelling hwins ?_
    rw [← List.cons_append, ← hspelling, hwhole, spelling, ← String.ofList_toList (s := text),
      String.toList_ofList, htext]
    cases kind <;> exact scanDelimited_closed _ hbody rest
  | identifier text => exact ofWord_eq_identifier.2 ⟨rfl, h.free⟩ ▸ legible_ofWord h.word hrest
  | comment kind text =>
    cases kind with
    | line =>
      obtain ⟨body, htext, hbody⟩ := h
      have hline : ('/' :: '/' :: (body ++ rest)).takeWhile (· != '\n') = text.toList := by
        rw [← List.cons_append, ← List.cons_append, ← htext]
        refine takeWhile_append_of_all ?_ ?_
        · rw [htext, List.all_eq_true]
          simp only [List.forall_mem_cons, bne_iff_ne]
          exact ⟨by decide, by decide, fun c hc heq => hbody (heq ▸ hc)⟩
        · intro c hc
          rw [hrest c hc]
          rfl
      have hwins := Rule.line_wins (body ++ rest)
      rw [hline] at hwins
      refine .of_wins htext hwins ?_
      rw [Rule.read, ← List.cons_append, ← htext, List.take_left, String.ofList_toList]
      rfl
    | block =>
      obtain ⟨body, htext, hbody⟩ := h
      refine .of_wins htext (Rule.block_wins (body ++ rest)) ?_
      rw [spelling, ← String.ofList_toList (s := text), String.toList_ofList, htext]
      exact scanDelimited_closed ['/', '*']
        ((Enclosure.closing?_blockComment_eq_length body).2 hbody) rest
  | invalid => exact h.elim

private theorem closed_of_scanDelimited {make : String → Lexeme} {fault : LexicalFault}
    {enclosure : Enclosure} {opener rest : List Char} {l : Lexeme} {n : Nat}
    (h : scanDelimited make fault enclosure opener.length (opener ++ rest) = (.ok l, n)) :
    ∃ body, l = make (String.ofList (opener ++ body)) ∧
      Enclosure.closing? [enclosure] body = some body.length := by
  unfold scanDelimited at h
  rw [List.drop_left] at h
  split at h
  · rename_i k hk
    cases h
    refine ⟨rest.take k, by rw [List.take_length_add_append], ?_⟩
    rw [Enclosure.closing?_take hk, List.length_take_of_le (Enclosure.closing?_le hk)]
  · cases h

private theorem scan_wellSpelled {c : Char} {cs : List Char} {l : Lexeme} {n : Nat}
    (h : scan c cs = (.ok l, n)) :
    l.WellSpelled := by
  rcases scan_longest c cs with ⟨r, m, hwins, hread⟩ | ⟨-, herror⟩
  · obtain ⟨front, behind, htext, rfl, hfront⟩ := hwins.fits
    have hworded := scan_worded h
    rw [h, htext] at hread
    cases r with
    | keyword k =>
      cases hread
      trivial
    | symbol s =>
      cases hread
      trivial
    | number kind =>
      rw [Rule.read, List.take_left] at hread
      cases hread
      rwa [WellSpelled, String.toList_ofList]
    | string kind =>
      cases kind <;>
      · cases hfront
        obtain ⟨body, rfl, hbody⟩ := closed_of_scanDelimited hread.symm
        exact ⟨body, String.toList_ofList, hbody⟩
    | identifier =>
      cases hread
      exact hworded
    | comment kind =>
      cases kind with
      | line =>
        obtain ⟨_, rfl, body, hbody, rfl⟩ := hfront
        rw [Rule.read, List.take_left] at hread
        cases hread
        exact ⟨body, String.toList_ofList, hbody⟩
      | block =>
        cases hfront
        obtain ⟨body, rfl, hbody⟩ := closed_of_scanDelimited hread.symm
        exact ⟨body, String.toList_ofList, (Enclosure.closing?_blockComment_eq_length body).1 hbody⟩
  · cases h.symm.trans herror

end Lexeme

namespace Lexer

theorem tokenize_spelling {l : Lexeme} (h : l.WellSpelled) (offset : Nat) :
    tokenize ⟨l.spelling.toList, offset⟩ =
      ([⟨l, ⟨offset, offset + Text.byteSize l.spelling.toList⟩⟩], []) := by
  have htokenize := Piece.tokenize_legible (h.legible (Lexeme.stops_nil l)) offset
  rwa [List.append_nil, tokenize_nil] at htokenize

theorem tokenize_wellSpelled (cs : List Char) (offset : Nat) :
    ∀ t ∈ (tokenize ⟨cs, offset⟩).1, t.lexeme = .invalid ∨ t.lexeme.WellSpelled := by
  induction cs using text_induction generalizing offset with
  | nil => nofun
  | blank c cs hc ih =>
    rw [tokenize_blank hc]
    exact ih _
  | scan c cs hc ih =>
    rw [tokenize_scan hc]
    refine List.forall_mem_cons.2 ⟨?_, ih _⟩
    unfold found
    cases hscan : (Lexeme.scan c cs).1 with
    | ok l =>
      exact .inr
        (Lexeme.scan_wellSpelled (Prod.ext hscan rfl : Lexeme.scan c cs = (.ok l, _)))
    | error fault => exact .inl rfl

/-- A lexeme is written as those of its kind are just where its spelling is read as the lexeme. -/
theorem wellSpelled_iff {l : Lexeme} (offset : Nat) : l.WellSpelled ↔
    (tokenize ⟨l.spelling.toList, offset⟩).1.map (·.lexeme) = [l] := by
  refine ⟨fun h => by rw [tokenize_spelling h, List.map_singleton], fun h => ?_⟩
  obtain ⟨t, ht, rfl⟩ := List.mem_map.1 (h ▸ List.mem_singleton_self l)
  refine (tokenize_wellSpelled _ _ t ht).resolve_left fun hinvalid => ?_
  rw [hinvalid] at h
  cases h

/-- Lexemes on lines of their own are read as they are written. -/
theorem tokenize_lines (ls : List Lexeme) (h : ∀ l ∈ ls, l.WellSpelled) (offset : Nat) :
    (ofString ("\n".intercalate (ls.map Lexeme.spelling)) offset).tokenize.1.map (·.lexeme) = ls ∧
      (ofString ("\n".intercalate (ls.map Lexeme.spelling)) offset).tokenize.2 = [] := by
  unfold ofString
  induction ls generalizing offset with
  | nil => exact ⟨rfl, rfl⟩
  | cons l ls ih =>
    obtain ⟨hl, hls⟩ := List.forall_mem_cons.1 h
    have hspelling := tokenize_spelling hl offset
    cases ls with
    | nil =>
      rw [List.map_singleton, String.intercalate_singleton, hspelling]
      exact ⟨rfl, rfl⟩
    | cons l' ls =>
      have htext : ("\n".intercalate ((l :: l' :: ls).map Lexeme.spelling)).toList =
          l.spelling.toList ++
            '\n' :: ("\n".intercalate ((l' :: ls).map Lexeme.spelling)).toList := by
        simp [String.intercalate_cons_cons]
      have hline :=
        @tokenize_line l.spelling.toList
          ("\n".intercalate ((l' :: ls).map Lexeme.spelling)).toList offset
          (by rw [hspelling]; nofun)
      obtain ⟨htokens, herrors⟩ := ih hls (offset + Text.byteSize l.spelling.toList + 1)
      rw [htext, hline, hspelling, List.map_append, htokens, herrors]
      exact ⟨rfl, rfl⟩

theorem tokenize_lines_of_literals :
    let ls : List Lexeme :=
  [.keyword .let_, .identifier "lets", .symbol .assign, .number .size "1.5kb",
      .number .integer "0x1F", .string .bytes "b\"\\\"\"",
      .string .interpolated "\"$\x7ba(\"\x7d\")\x7d\"", .comment .line "//*",
      .comment .block "/*/*/"]
    (∀ l ∈ ls, l.WellSpelled) ∧
      (ofString ("\n".intercalate (ls.map Lexeme.spelling)) 7).tokenize.1.map (·.lexeme) = ls ∧
      (ofString ("\n".intercalate (ls.map Lexeme.spelling)) 7).tokenize.2 = [] := by
  intro ls
  have hls : ∀ l ∈ ls, l.WellSpelled := by
    simp only [ls, List.forall_mem_cons, List.not_mem_nil, false_implies, implies_true, and_true]
    refine ⟨trivial, ⟨⟨⟨_, _, rfl, rfl⟩, rfl⟩, rfl⟩, trivial, ?_, ?_, ?_, ?_, ?_, ?_⟩
    · exact @Lexeme.scan_wellSpelled '1' ".5kb".toList _ 5 (by decide)
    · exact @Lexeme.scan_wellSpelled '0' "x1F".toList _ 4 (by decide)
    · exact ⟨"\\\"\"".toList, rfl, by decide⟩
    · exact ⟨"$\x7ba(\"\x7d\")\x7d\"".toList, rfl, by decide⟩
    · exact ⟨['*'], rfl, by decide⟩
    · exact ⟨"/*/".toList, rfl, by decide⟩
  exact ⟨hls, tokenize_lines ls hls 7⟩

end Lexer

end ApiScript
