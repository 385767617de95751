import ApiScript.Proofs.Lexing.Rules

set_option autoImplicit false
set_option relaxedAutoImplicit false

/-!
At the head of a text stands the lexeme of the rule that wins there: what is read is as long as any
pattern lets it be.
-/

namespace ApiScript

namespace Rule

section Words

open Lexeme

variable {front behind cs : List Char} {c : Char} {n : Nat}

private theorem run_of_word (h : Word (String.ofList front)) : front ∈ run isWordPart := by
  obtain ⟨⟨c, cs, hcs, -⟩, hparts⟩ := h
  rw [String.toList_ofList] at hcs hparts
  exact ⟨hcs ▸ List.cons_ne_nil c cs, hparts⟩

theorem keyword_word (k : Keyword) : Word k.spelling := by
  cases k <;> exact ⟨⟨_, _, rfl, rfl⟩, rfl⟩

theorem ofSpelling?_spelling (k : Keyword) : Keyword.ofSpelling? k.spelling = some k := by
  cases k <;> decide

private theorem symbol?_spelled (s : Symbol) : symbol? s.spelling.toList = some s := by
  have hs := @symbol?_append s [] fun c hc => absurd hc (Option.not_mem_none c)
  rwa [List.append_nil] at hs

private theorem symbol_longest (s : Symbol) (rest : List Char) :
    ∃ s', symbol? (s.spelling.toList ++ rest) = some s' ∧
    (s.spelling.toList.length < s'.spelling.toList.length ∨ s = s') := by
  have hsorted :
      Symbol.byLength.Pairwise fun a b =>
        b.spelling.toList.length ≤ a.spelling.toList.length := by decide
  obtain ⟨s', hfind, hlongest⟩ :=
    find?_longest hsorted (List.mem_of_find?_eq_some (symbol?_spelled s)) rest
  refine ⟨s', hfind, hlongest.imp_right fun heq => Option.some.inj ?_⟩
  rw [← symbol?_spelled s, heq, symbol?_spelled s']

def Heads : Rule → Char → Prop
  | keyword _, c | identifier, c => isWordStart c = true
  | symbol _, c => c.isDigit = false ∧ isWordStart c = false ∧ c ≠ '"' ∧ c ≠ '\''
  | number _, c => c.isDigit = true
  | string .interpolated, c => c = '"'
  | string .simple, c => c = '\''
  | string .bytes, c => c = 'b'
  | comment _, c => c = '/'

theorem numeral_head {kind : NumberClass} (h : front ∈ numeral kind) :
    ∃ c behind, front = c :: behind ∧ c.isDigit = true := by
  have hrun {ds : List Char} (hds : ds ∈ run Char.isDigit) (rest : List Char) :
      ∃ c behind, ds ++ rest = c :: behind ∧ c.isDigit = true := by
    obtain ⟨d, ds, rfl⟩ := List.exists_cons_of_ne_nil hds.1
    exact ⟨d, ds ++ rest, rfl, (Bool.and_eq_true_iff.1 hds.2).1⟩
  have hmagnitude (h : front ∈ run Char.isDigit * (1 + fraction) * unit kind) :
      ∃ c behind, front = c :: behind ∧ c.isDigit = true := by
    obtain ⟨_, ⟨ds, hds, f, -, rfl⟩, u, -, rfl⟩ := h
    simpa only [List.append_assoc] using hrun hds (f ++ u)
  cases kind with
  | integer =>
    rcases h with hds | ⟨letter, _, -, _, rfl, hs, -, rfl⟩
    · simpa only [List.append_nil] using hrun hds []
    · exact ⟨'0', letter :: hs, rfl, rfl⟩
  | float =>
    rcases h with ⟨_, ⟨ds, hds, f, -, rfl⟩, e, -, rfl⟩ | ⟨ds, hds, e, -, rfl⟩
    · simpa only [List.append_assoc] using hrun hds (f ++ e)
    · exact hrun hds e
  | duration => exact hmagnitude h
  | size => exact hmagnitude h

theorem pattern_head {r : Rule} (h : front ∈ r.pattern) : ∃ c behind, front = c :: behind ∧
    r.Heads c := by
  have hword {front : List Char} (h : Word (String.ofList front)) :
      ∃ c behind, front = c :: behind ∧ isWordStart c = true := by
    obtain ⟨c, behind, hcs, hc⟩ := h.start
    exact ⟨c, behind, String.toList_ofList.symm.trans hcs, hc⟩
  cases r with
  | keyword k =>
    cases h
    exact hword (String.ofList_toList ▸ keyword_word k)
  | symbol s =>
    cases h
    obtain ⟨c, cs, hcs, -, hdigit, hdouble, hsingle, hword, -⟩ := symbol_first s
    exact ⟨c, cs, hcs, hdigit, hword, hdouble, hsingle⟩
  | number kind => exact numeral_head h
  | string kind =>
    cases kind <;>
    · cases h
      exact ⟨_, _, rfl, rfl⟩
  | identifier => exact hword h
  | comment kind =>
    cases kind with
    | line =>
      obtain ⟨_, rfl, l, -, rfl⟩ := h
      exact ⟨'/', '/' :: l, rfl, rfl⟩
    | block =>
      cases h
      exact ⟨'/', ['*'], rfl, rfl⟩

private theorem Fits.heads {r : Rule} (h : r.Fits (c :: cs) n) : r.Heads c := by
  obtain ⟨front, behind, hcs, -, hmem⟩ := h
  obtain ⟨d, front, rfl, hd⟩ := pattern_head hmem
  rwa [(List.cons.inj hcs).1]

theorem number_wins (h : c.isDigit = true) (cs : List Char) :
    (number (numberLength (c :: cs)).1).Wins (c :: cs) (numberLength (c :: cs)).2 where
  fits := numeral_fits h cs
  longest r m hr := by
    have hheads := hr.heads
    cases r with
    | number kind =>
      obtain ⟨front, behind, hcs, rfl, hmem⟩ := hr
      rw [hcs]
      exact (numeral_longest hmem behind).imp_right fun heq => ⟨heq.1, congrArg number heq.2.symm⟩
    | keyword k => exact absurd h (not_isDigit_of_isWordStart hheads ▸ Bool.false_ne_true)
    | identifier => exact absurd h (not_isDigit_of_isWordStart hheads ▸ Bool.false_ne_true)
    | symbol s => exact absurd h (hheads.1 ▸ Bool.false_ne_true)
    | string kind => cases kind <;> · cases hheads; cases h
    | comment kind => cases hheads; cases h

theorem string_wins (quote : Quote) (cs : List Char) :
    (string quote.stringClass).Wins (quote.char :: cs) 1 where
  fits := ⟨[quote.char], cs, rfl, rfl, by cases quote <;> rfl⟩
  longest r m hr := by
    have hheads := hr.heads
    cases r with
    | string kind =>
      obtain ⟨front, behind, -, rfl, hmem⟩ := hr
      obtain rfl : kind = quote.stringClass := by
        cases quote <;> cases kind <;> first | rfl | simp [Heads, Quote.char] at hheads
      have hfront : front = [quote.char] := by cases quote <;> exact hmem
      exact .inr ⟨congrArg List.length hfront, rfl⟩
    | keyword k => cases quote <;> cases hheads
    | identifier => cases quote <;> cases hheads
    | symbol s => cases quote; exacts [absurd rfl hheads.2.2.1, absurd rfl hheads.2.2.2]
    | number kind => cases quote <;> cases hheads
    | comment kind => cases quote <;> simp [Heads, Quote.char] at hheads

private theorem word_le (h : Word (String.ofList front)) (hcs : cs = front ++ behind) :
    front.length ≤ (cs.takeWhile isWordPart).length := by
  rw [hcs]
  exact run_le (run_of_word h) behind

theorem bytes_wins (cs : List Char) : (string .bytes).Wins ('b' :: '"' :: cs) 2 where
  fits := ⟨['b', '"'], cs, rfl, rfl, rfl⟩
  longest r m hr := by
    have hheads := hr.heads
    obtain ⟨front, behind, hcs, rfl, hmem⟩ := hr
    have hword (h : Word (String.ofList front)) : front.length < 2 :=
      Nat.lt_succ_of_le (word_le h hcs)
    cases r with
    | string kind =>
      obtain rfl : kind = .bytes := by cases kind <;> first | rfl | simp [Heads] at hheads
      exact .inr ⟨congrArg List.length hmem, rfl⟩
    | keyword k =>
      cases hmem
      exact .inl (hword (String.ofList_toList ▸ keyword_word k))
    | identifier => exact .inl (hword hmem)
    | symbol s => cases hheads.2.1
    | number kind => cases hheads
    | comment kind => simp [Heads] at hheads

private theorem word_wins_of {r : Rule} (h : isWordStart c = true)
    (hbytes : ¬(c = 'b' ∧ cs.head? = some '"')) (hr : (c :: cs).takeWhile isWordPart ∈ r.pattern)
    (hidentifier : r.Before identifier)
    (hkeyword : ∀ k : Keyword, k.spelling.toList = (c :: cs).takeWhile isWordPart → r = keyword k) :
    r.Wins (c :: cs) ((c :: cs).takeWhile isWordPart).length where
  fits := ⟨_, (c :: cs).dropWhile isWordPart, List.takeWhile_append_dropWhile.symm, rfl, hr⟩
  longest r' m hr' := by
    have hheads := hr'.heads
    obtain ⟨front, behind, hcs, rfl, hmem⟩ := hr'
    cases r' with
    | keyword k =>
      cases hmem
      refine (Nat.lt_or_eq_of_le (word_le (String.ofList_toList ▸ keyword_word k) hcs)).imp_right
        fun heq => ⟨heq, ?_⟩
      have hprefix : k.spelling.toList <+: c :: cs := ⟨behind, hcs.symm⟩
      have hword := List.prefix_of_prefix_length_le hprefix (List.takeWhile_prefix _) heq.le
      rw [hkeyword k (hword.eq_of_length heq)]
      rfl
    | identifier =>
      exact (Nat.lt_or_eq_of_le (word_le hmem hcs)).imp_right fun heq => ⟨heq, hidentifier⟩
    | string kind =>
      cases kind with
      | interpolated =>
        cases hheads
        cases h
      | simple =>
        cases hheads
        cases h
      | bytes =>
        cases hmem
        obtain ⟨rfl, rfl⟩ := List.cons.inj hcs
        exact absurd ⟨rfl, rfl⟩ hbytes
    | symbol s => exact absurd h (hheads.2.1 ▸ Bool.false_ne_true)
    | number kind => cases (not_isDigit_of_isWordStart h).symm.trans hheads
    | comment kind =>
      cases hheads
      cases h

private theorem word_wins (h : isWordStart c = true) (hbytes : ¬(c = 'b' ∧ cs.head? = some '"')) :
    ∃ r : Rule, r.Wins (c :: cs) ((c :: cs).takeWhile isWordPart).length ∧
      r.read (c :: cs) ((c :: cs).takeWhile isWordPart).length =
        (.ok (ofWord (String.ofList ((c :: cs).takeWhile isWordPart))),
        ((c :: cs).takeWhile isWordPart).length) := by
  cases hk : Keyword.ofSpelling? (String.ofList ((c :: cs).takeWhile isWordPart)) with
  | some k =>
    have hspelling : k.spelling = String.ofList ((c :: cs).takeWhile isWordPart) := by
      simpa using List.find?_some hk
    refine ⟨keyword k, word_wins_of h hbytes ?_ trivial fun k' hk' => ?_, by rw [ofWord, hk]; rfl⟩
    · rw [pattern, hspelling, String.toList_ofList]
      rfl
    · rw [← hk', String.ofList_toList, ofSpelling?_spelling] at hk
      rw [Option.some.inj hk]
  | none =>
    refine ⟨identifier, word_wins_of h hbytes (word_takeWhile h) rfl fun k' hk' => ?_, ?_⟩
    · rw [← hk', String.ofList_toList, ofSpelling?_spelling] at hk
      cases hk
    · rw [ofWord, hk, read, take_takeWhile_length]

private theorem slash_length {s : Symbol} (h : '/' :: cs = s.spelling.toList ++ behind) :
    s.spelling.toList.length = 1 := by
  obtain ⟨c, rest, hspelling, -, -, -, -, -, hslash⟩ := symbol_first s
  rw [hspelling] at h ⊢
  rw [(hslash (List.cons.inj h).1.symm).2]
  rfl

theorem line_wins (cs : List Char) :
    (comment .line).Wins ('/' :: '/' :: cs) (('/' :: '/' :: cs).takeWhile (· != '\n')).length where
  fits := by
    refine ⟨'/' :: '/' :: cs.takeWhile (· != '\n'), cs.dropWhile (· != '\n'), ?_, rfl, ['/', '/'],
      rfl, _, ?_, rfl⟩
    · rw [List.cons_append, List.cons_append, List.takeWhile_append_dropWhile]
    · exact fun hmem => absurd (List.all_eq_true.1 List.all_takeWhile _ hmem) (by decide)
  longest r m hr := by
    have hheads := hr.heads
    obtain ⟨front, behind, hcs, rfl, hmem⟩ := hr
    cases r with
    | comment kind =>
      cases kind with
      | line =>
        obtain ⟨_, rfl, l, hl, rfl⟩ := hmem
        have hrun : ['/', '/'] ++ l ∈ run (· != '\n') := by
          refine ⟨List.cons_ne_nil _ _, List.all_eq_true.2 fun c hc => bne_iff_ne.2 ?_⟩
          rintro rfl
          exact hl ((List.mem_append.1 hc).resolve_left (by decide))
        rw [hcs]
        exact (Nat.lt_or_eq_of_le (run_le hrun behind)).imp_right fun h => ⟨h, rfl⟩
      | block =>
        cases hmem
        cases hcs
    | symbol s =>
      cases hmem
      exact .inl (slash_length hcs ▸ Nat.succ_lt_succ (Nat.succ_pos _))
    | keyword k => cases hheads
    | identifier => cases hheads
    | number kind => cases hheads
    | string kind => cases kind <;> simp [Heads] at hheads

theorem block_wins (cs : List Char) : (comment .block).Wins ('/' :: '*' :: cs) 2 where
  fits := ⟨['/', '*'], cs, rfl, rfl, rfl⟩
  longest r m hr := by
    have hheads := hr.heads
    obtain ⟨front, behind, hcs, rfl, hmem⟩ := hr
    cases r with
    | comment kind =>
      cases kind with
      | line =>
        obtain ⟨_, rfl, l, hl, rfl⟩ := hmem
        cases hcs
      | block => exact .inr ⟨congrArg List.length hmem, rfl⟩
    | symbol s =>
      cases hmem
      exact .inl (slash_length hcs ▸ Nat.one_lt_two)
    | keyword k => cases hheads
    | identifier => cases hheads
    | number kind => cases hheads
    | string kind => cases kind <;> simp [Heads] at hheads

private theorem symbol_of_fits {r : Rule} (hr : r.Fits (c :: cs) n) (hdigit : c.isDigit ≠ true)
    (hdouble : c ≠ '"') (hsingle : c ≠ '\'') (hbytes : ¬(c = 'b' ∧ cs.head? = some '"'))
    (hword : isWordStart c ≠ true) (hline : ¬(c = '/' ∧ cs.head? = some '/'))
    (hblock : ¬(c = '/' ∧ cs.head? = some '*')) :
    ∃ s : Symbol, r = symbol s ∧ s.spelling.toList.length = n ∧ s.spelling.toList <+: c :: cs := by
  have hheads := hr.heads
  obtain ⟨front, behind, hcs, rfl, hmem⟩ := hr
  cases r with
  | symbol s =>
    cases hmem
    exact ⟨s, rfl, rfl, behind, hcs.symm⟩
  | keyword k => exact absurd hheads hword
  | identifier => exact absurd hheads hword
  | number kind => exact absurd hheads hdigit
  | string kind =>
    cases kind with
    | interpolated => exact absurd hheads hdouble
    | simple => exact absurd hheads hsingle
    | bytes =>
      cases hmem
      obtain ⟨rfl, rfl⟩ := List.cons.inj hcs
      exact absurd ⟨rfl, rfl⟩ hbytes
  | comment kind =>
    cases kind with
    | line =>
      obtain ⟨_, rfl, l, -, rfl⟩ := hmem
      obtain ⟨rfl, rfl⟩ := List.cons.inj hcs
      exact absurd ⟨rfl, rfl⟩ hline
    | block =>
      cases hmem
      obtain ⟨rfl, rfl⟩ := List.cons.inj hcs
      exact absurd ⟨rfl, rfl⟩ hblock

end Words

private theorem Wins.unique {r r' : Rule} {cs : List Char} {n n' : Nat} (h : r.Wins cs n)
    (h' : r'.Wins cs n') :
    r = r' ∧ n = n' := by
  rcases h.longest r' n' h'.fits with hlt | ⟨rfl, hbefore⟩
  · rcases h'.longest r n h.fits with hlt' | ⟨rfl, -⟩
    · exact absurd hlt (Nat.lt_asymm hlt')
    · exact absurd hlt (Nat.lt_irrefl _)
  · rcases h'.longest r n' h.fits with hlt | ⟨-, hbefore'⟩
    · exact absurd hlt (Nat.lt_irrefl _)
    · refine ⟨?_, rfl⟩
      unfold Before at hbefore hbefore'
      split at hbefore
      · cases hbefore'
      · exact hbefore

end Rule

namespace Lexeme

open Rule

/-- At the head of a text stands the lexeme that the longest pattern there tells, and where none
fits, a character that is no part of a lexeme. -/
theorem scan_longest (c : Char) (cs : List Char) :
    (∃ (r : Rule) (n : Nat), r.Wins (c :: cs) n ∧ scan c cs = r.read (c :: cs) n) ∨
      (∀ (r : Rule) (n : Nat), ¬ r.Fits (c :: cs) n) ∧
      scan c cs = (.error (.unexpectedCharacter c), 1) := by
  unfold scan
  dsimp only
  split
  · rename_i hdigit
    exact .inl ⟨_, _, number_wins hdigit cs, rfl⟩
  rename_i hdigit
  split
  · subst c
    exact .inl ⟨_, _, string_wins .double cs, rfl⟩
  rename_i hdouble
  split
  · subst c
    exact .inl ⟨_, _, string_wins .single cs, rfl⟩
  rename_i hsingle
  split
  · rename_i hbytes
    obtain ⟨rfl, hhead⟩ := hbytes
    obtain ⟨rest, rfl⟩ := List.head?_eq_some_iff.1 hhead
    exact .inl ⟨_, _, bytes_wins rest, rfl⟩
  rename_i hbytes
  split
  · rename_i hword
    obtain ⟨r, hwins, hread⟩ := word_wins hword hbytes
    exact .inl ⟨r, _, hwins, hread.symm⟩
  rename_i hword
  split
  · rename_i hline
    obtain ⟨rfl, hhead⟩ := hline
    obtain ⟨rest, rfl⟩ := List.head?_eq_some_iff.1 hhead
    refine .inl ⟨_, _, line_wins rest, ?_⟩
    rw [Rule.read, take_takeWhile_length]
  rename_i hline
  split
  · rename_i hblock
    obtain ⟨rfl, hhead⟩ := hblock
    obtain ⟨rest, rfl⟩ := List.head?_eq_some_iff.1 hhead
    exact .inl ⟨_, _, block_wins rest, rfl⟩
  rename_i hblock
  have honly {r : Rule} {n : Nat} (hr : r.Fits (c :: cs) n) :=
    symbol_of_fits hr hdigit hdouble hsingle hbytes hword hline hblock
  split
  · rename_i s hs
    have hprefix : s.spelling.toList <+: c :: cs := by simpa using List.find?_some hs
    obtain ⟨behind, hbehind⟩ := hprefix
    refine .inl ⟨.symbol s, _,
      ⟨⟨_, behind, hbehind.symm, String.length_toList, rfl⟩, fun r n hr => ?_⟩, rfl⟩
    obtain ⟨s', rfl, rfl, rest, hrest⟩ := honly hr
    obtain ⟨s'', hs'', hlongest⟩ := symbol_longest s' rest
    rw [hrest, hs] at hs''
    obtain rfl := Option.some.inj hs''
    rw [← String.length_toList]
    refine hlongest.imp_right ?_
    rintro rfl
    exact ⟨rfl, rfl⟩
  · rename_i hnone
    refine .inr ⟨fun r n hr => ?_, rfl⟩
    obtain ⟨s, rfl, rfl, rest, hrest⟩ := honly hr
    obtain ⟨s', hs', -⟩ := symbol_longest s rest
    rw [hrest, hnone] at hs'
    cases hs'

theorem scan_of_wins {r : Rule} {c : Char} {cs : List Char} {n : Nat} (h : r.Wins (c :: cs) n) :
    scan c cs = r.read (c :: cs) n := by
  rcases scan_longest c cs with ⟨r', n', hwins, hread⟩ | ⟨hnone, -⟩
  · obtain ⟨rfl, rfl⟩ := h.unique hwins
    exact hread
  · exact absurd h.fits (hnone r n)

end Lexeme

end ApiScript
