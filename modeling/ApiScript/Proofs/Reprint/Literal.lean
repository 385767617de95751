import ApiScript.Proofs.Reprint.String

set_option autoImplicit false
set_option relaxedAutoImplicit false

/-!
Literals are read again from what they are written as, in front of what does not run into them.
-/

namespace ApiScript

open Piece Placed
open Grammar (Denotes)

private theorem Grammar.Denotes.spelled {sign : String} {span : Span} {found : Lexeme} {l : Literal}
    (h : Denotes sign span found l) (hfound : found.WellSpelled)
    (hsign : sign = "" ∨ sign = "-" ∧ found.isSignable = true) :
    ∃ found', l.Spelled sign found' ∧ found'.role = found.role ∧
      ((Node.literal l).Embeddable → ¬found'.Misread) := by
  have hmem : sign ∈ ["", "-"] := by
    rcases hsign with rfl | ⟨rfl, -⟩ <;> decide
  have hempty (hnot : found.isSignable = false) : sign = "" :=
    hsign.resolve_right fun h => Bool.false_ne_true (hnot.symm.trans h.2)
  cases h with
  | @integer raw value hvalue =>
    refine ⟨_, .of_denotes (number_signed hmem hfound) hfound rfl hsign fun span' => ?_, rfl,
      fun _ => id⟩
    exact ⟨_, .integer (Numeral.integer_anywhere hvalue span'), rfl⟩
  | @float raw value hvalue =>
    refine ⟨_, .of_denotes (number_signed hmem hfound) hfound rfl hsign fun span' => ?_, rfl,
      fun _ => id⟩
    exact ⟨_, .float (Numeral.float_anywhere hvalue span'), rfl⟩
  | @duration raw value unit hvalue =>
    obtain rfl := hempty rfl
    refine ⟨_, .of_denotes (number_unsigned hfound) hfound rfl hsign fun span' => ?_, rfl,
      fun _ => id⟩
    exact ⟨_, .duration (Numeral.quantity_anywhere hvalue span'), rfl⟩
  | @size raw value unit hvalue =>
    obtain rfl := hempty rfl
    refine ⟨_, .of_denotes (number_unsigned hfound) hfound rfl hsign fun span' => ?_, rfl,
      fun _ => id⟩
    exact ⟨_, .size (Numeral.quantity_anywhere hvalue span'), rfl⟩
  | @bytes raw value hvalue =>
    obtain rfl := hempty rfl
    refine ⟨Quoted.bytesLexeme value,
      .of_denotes rfl (Quoted.bytesLexeme_wellSpelled value) rfl hsign ?_, rfl, id⟩
    exact fun span' => ⟨_, .bytes (Quoted.decodeBytes_encode value span'), rfl⟩
  | true_ =>
    obtain rfl := hempty rfl
    exact ⟨.keyword .true_, .of_denotes rfl trivial rfl hsign fun _ => ⟨_, .true_, rfl⟩, rfl,
      fun _ => id⟩
  | false_ =>
    obtain rfl := hempty rfl
    exact ⟨.keyword .false_, .of_denotes rfl trivial rfl hsign fun _ => ⟨_, .false_, rfl⟩, rfl,
      fun _ => id⟩
  | null =>
    obtain rfl := hempty rfl
    exact ⟨.keyword .null, .of_denotes rfl trivial rfl hsign fun _ => ⟨_, .null, rfl⟩, rfl,
      fun _ => id⟩

private theorem Grammar.Denotes.layout {sign : String} {span : Span} {found : Lexeme} {l : Literal}
    (h : Denotes sign span found l) (indent : Nat) : l.layout indent = l.layout 0 := by
  cases h <;> rw [Literal.layout, Literal.layout]

namespace Grammar

variable {inner : Inner} {s t u : State} {l : Literal} {code : Bool} {sign : String}
    {found : Lexeme} {indent n : Nat}
  {qs : List Piece}

section Signed

private theorem State.sign_cases (s : State) {found : Lexeme}
    (h : s.behindSign.current? = some found) :
    s.sign = "" ∨ s.sign = "-" ∧ found.isSignable = true := by
  cases hsign : s.atNegativeNumber with
  | true =>
    simp only [State.behindSign, hsign, ↓reduceIte] at h
    exact .inr ⟨by simp [State.sign, hsign], State.current?_behind_minus hsign h⟩
  | false => exact .inl (by simp [State.sign, hsign])

private theorem State.behindSign_of_sign (h : s.sign = "") : s.behindSign = s := by
  cases hsign : s.atNegativeNumber with
  | true => simp [State.sign, hsign] at h
  | false => simp [State.behindSign, hsign]

private theorem State.atInteger_of_behindSign {raw : String}
    (h : s.behindSign.current? = some (.number .integer raw)) :
    s.atInteger = true := by
  unfold State.behindSign at h
  unfold State.atInteger
  split at h
  · rename_i hsign
    obtain ⟨minus, _, _, hafter, hminus, -⟩ := State.atNegativeNumber_iff.1 hsign
    have hcurrent : s.current? = some (.symbol .minus) := by
      simp [State.current?, State.peek?, hafter, hminus]
    have hpeek : s.peek? 1 = some (.number .integer raw) := by rw [← State.peek?_advance]; exact h
    rw [hcurrent, hpeek]
    exact hsign
  · rw [h]

private theorem signed_minus (found : Lexeme) (qs : List Piece) :
    signed "-" found ++ qs = symbol .minus :: lexeme found :: qs := rfl

private theorem joined_signed (hsign : sign = "" ∨ sign = "-" ∧ found.isSignable = true)
    (hliteral : found.isLiteral = true) :
    joined (signed sign found ++ qs) = signed sign found ++ joined qs := by
  have hfound : joined (lexeme found :: qs) = lexeme found :: joined qs := by
    refine joined_cons fun hbar => ?_
    obtain rfl := Piece.lexeme.inj hbar
    cases hliteral
  rcases hsign with rfl | ⟨rfl, -⟩
  · exact hfound
  · rw [signed_minus, signed_minus]
    exact (joined_cons (p := symbol .minus) nofun).trans (congrArg _ hfound)

private theorem State.Shows.signed (hsign : sign = "" ∨ sign = "-" ∧ found.isSignable = true)
    (hliteral : found.isLiteral = true) (h : u.Shows (signed sign found ++ qs)) :
    u.atLiteral = true ∧ u.sign = sign ∧
      u.behindSign.current? = some found ∧ u.behindSign.advance.Shows qs := by
  obtain ⟨offset, hafter⟩ := h
  rw [joined_signed hsign hliteral, tokens_append] at hafter
  obtain ⟨hat, hsigned, hfound, hrest⟩ := State.at_signed hsign hliteral ⟨offset, hafter⟩
  exact ⟨hat, hsigned, hfound, _, hrest⟩

end Signed

/-- A literal that was read is written as a lexeme behind a sign, of the kind that it was read from,
and is read from it wherever that stands. -/
structure Respelled (inner : Inner) (code : Bool) (s : State) (l : Literal) (indent : Nat)
    (sign : String) (found : Lexeme) : Prop where
  layout : l.layout indent = signed sign found
  wellSpelled : found.WellSpelled
  isLiteral : found.isLiteral = true
  signable : sign = "" ∨ sign = "-" ∧ found.isSignable = true
  bytes : code = true → ¬found.Misread
  same : s.sign = sign
  role : s.behindSign.current?.map Lexeme.role = some found.role
  reads {u : State} : u.sign = sign → u.behindSign.current? = some found →
    ∃ l', Reads (literal inner) u l' u.behindSign.advance ∧ Same l l'

private theorem reads_literal_string {string : StringLiteral} {kind : StringClass} {raw : String}
    (hkind : kind ≠ .bytes) (hs : s.current? = some (.string kind raw))
    (h : Reads (Grammar.string inner .literal) s string t) :
    Reads (literal inner) s (.string string) t := by
  have hsign : s.atNegativeNumber = false := State.atNegativeNumber_of_current? hs nofun
  unfold literal
  rw [reads_get_bind, hsign]
  simp only [Bool.false_eq_true, ↓reduceIte]
  rw [reads_get_bind, hs]
  cases kind with
  | bytes => exact absurd rfl hkind
  | _ => exact reads_bind.2 ⟨_, _, h, reads_pure.2 ⟨rfl, rfl⟩⟩

theorem Echoes.respelled [∀ e, Advances (inner e)] (hi : Echoes inner)
    (h : Hears (literal inner) s l t) (hgood : Node.Good code (.literal l)) (indent : Nat) :
    ∃ sign found, Respelled inner code s l indent sign found := by
  obtain ⟨hread, hs, hlog⟩ := h
  rcases reads_literal hread with ⟨string, rfl, hstring⟩ | ⟨found, hfound, hdenotes, rfl⟩
  · have hear : Hears (Grammar.string inner .literal) s.behindSign string t :=
      ⟨hstring, hs.reaches s.behindSign_reaches, hlog.trans s.log_behindSign.symm⟩
    have hchild : Node.Good code (.string string) := hgood.children _ (List.mem_singleton_self _)
    obtain ⟨kind, hkind, raw, raw', hcurrent, hlayout, hspelled, hreread⟩ :=
      hi.string_spelled hear hchild indent
    have hempty : s.sign = "" := (s.sign_cases hcurrent).resolve_right fun h => by cases h.2
    refine ⟨"", .string kind raw', by
      rw [Literal.layout, hlayout]; rfl, hspelled, rfl, .inl rfl, fun _ => ?_, hempty,
      by rw [hcurrent]; rfl, fun {u} hsign hu => ?_⟩
    · cases kind with
      | bytes => exact absurd rfl hkind
      | _ => exact id
    · rw [State.behindSign_of_sign hsign] at hu ⊢
      obtain ⟨l', hl', hsame⟩ := hreread .literal u hu
      exact ⟨.string l', reads_literal_string hkind hu hl', congrArg Literal.string hsame⟩
  · have hspelled := (hs.reaches s.behindSign_reaches).current? hfound
    obtain ⟨found', hl, hrole, hbytes⟩ := hdenotes.spelled hspelled (s.sign_cases hfound)
    refine ⟨s.sign,
      found', by rw [hdenotes.layout, hl.layout], hl.wellSpelled, hl.isLiteral, hl.signable,
      fun hcode => hbytes (hgood.here.embeddable hcode),
      rfl, by rw [hfound, Option.map_some, hrole], fun {u} hsign hu => ?_⟩
    obtain ⟨l', hl', hbare⟩ := hl.reads inner u hsign hu
    exact ⟨l', hl', hbare.symm⟩

namespace Respelled

variable (h : Respelled inner code s l indent sign found)

include h

theorem begins : Begins (render (l.layout indent ++ qs)).toList := by
  have hfound : Begins (render (lexeme found :: qs)).toList := by
    rw [render_cons]
    exact (h.wellSpelled.begins h.isLiteral).append _
  rw [h.layout]
  rcases h.signable with rfl | ⟨rfl, -⟩
  · exact hfound
  · rw [signed_minus, render_cons]
    exact ⟨'-', _, rfl, by decide, by decide⟩

private theorem written (hdetached : Detached (render qs).toList) (hqs : Written code n qs) :
    Written code n (l.layout indent ++ qs) := by
  have hplain : found ∉ [.symbol .bar, .symbol .dot, .symbol .leftBrace, .symbol .rightBrace] := by
    have hliteral := h.isLiteral
    simp only [List.mem_cons, List.not_mem_nil, or_false, not_or]
    refine ⟨?_, ?_, ?_, ?_⟩ <;>
    · rintro rfl
      cases hliteral
  have hfound : Written code n (lexeme found :: qs) :=
    .detached h.wellSpelled
      (Lexeme.stops_of_isLiteral h.isLiteral hdetached.bounds hdetached.not_goesOn).1 hplain h.bytes
        hdetached hqs
  have hbegins := (h.wellSpelled.begins h.isLiteral).append (render qs).toList
  rw [h.layout]
  rcases h.signable with rfl | ⟨rfl, -⟩
  · exact hfound
  · rw [signed_minus]
    refine hfound.symbol (by decide) ?_
    rw [render_cons]
    exact hbegins.stops (by simp [Symbol.growsBy])

theorem shown (hu : u.Shows (l.layout indent ++ qs)) : u.atLiteral = true ∧ u.sign = sign ∧
    u.behindSign.current? = some found ∧ u.behindSign.advance.Shows qs := by
  rw [h.layout] at hu
  exact hu.signed h.signable h.isLiteral

theorem atInteger (hu : u.Shows (l.layout indent ++ qs)) : u.atInteger = s.atInteger := by
  obtain ⟨-, -, hfound, -⟩ := h.shown hu
  have hrole := h.role
  rw [Option.map_eq_some_iff] at hrole
  obtain ⟨found', hfound', hrole⟩ := hrole
  rw [Bool.eq_iff_iff]
  constructor
  · intro hinteger
    obtain ⟨raw, hraw⟩ := State.behindSign_of_atInteger hinteger
    obtain rfl := Option.some.inj (hfound.symm.trans hraw)
    exact State.atInteger_of_behindSign
      (hfound'.trans (congrArg some (Lexeme.eq_of_role hrole rfl)))
  · intro hinteger
    obtain ⟨raw, hraw⟩ := State.behindSign_of_atInteger hinteger
    obtain rfl := Option.some.inj (hfound'.symm.trans hraw)
    exact State.atInteger_of_behindSign
      (hfound.trans (congrArg some (Lexeme.eq_of_role hrole.symm rfl)))

theorem echo (hdetached : Detached (render qs).toList) : Echo code (literal inner) l n
    (l.layout indent ++ qs) n qs where
  written := h.written hdetached
  answers {u} hu := by
    obtain ⟨-, hsign, hfound, hrest⟩ := h.shown hu
    obtain ⟨l', hl', hsame⟩ := h.reads hsign hfound
    exact ⟨l', _, hl', hsame, hrest, (State.log_advance _).trans u.log_behindSign⟩

theorem likes : Likes s (l.layout indent ++ qs) := by
  have hsame := h.same
  have hrole := h.role
  have hliteral := h.isLiteral
  rw [h.layout]
  rcases h.signable with rfl | ⟨rfl, -⟩
  · rw [State.behindSign_of_sign hsame] at hrole
    refine likes_lexeme hrole ?_ ?_ <;>
    · rintro rfl
      cases hliteral
  · have hnegative : s.atNegativeNumber = true := by
      cases hnegative : s.atNegativeNumber with
      | true => rfl
      | false => simp [State.sign, hnegative] at hsame
    obtain ⟨minus, _, _, hafter, hminus, -⟩ := State.atNegativeNumber_iff.1 hnegative
    have hcurrent : s.current? = some (.symbol .minus) := by
      simp [State.current?, State.peek?, hafter, hminus]
    exact likes_lexeme (l := .symbol .minus) (by rw [hcurrent]; rfl) (by simp) (by simp)

end Respelled

section Ahead

variable {bound : Bool}

theorem Ahead.not_atLiteral (h : Ahead true t qs) (ht : t.atLiteral = false) (hu : u.Shows qs) :
    u.atLiteral = false := by
  have hrole (l : Lexeme) : l.role.isLiteral = l.isLiteral := by
    unfold Lexeme.role
    split <;> rfl
  have hany (o : Option Lexeme) :
      o.any Lexeme.isLiteral = (o.map Lexeme.role).any Lexeme.isLiteral := by
    cases o with
    | none => rfl
    | some l => exact (hrole l).symm
  rw [State.atLiteral, Bool.or_eq_false_iff] at ht ⊢
  refine ⟨?_, h.unsigned rfl u hu⟩
  rw [hany, (h.likes u hu).role, ← hany]
  exact ht.1

theorem Ahead.not_atInteger (h : Ahead true t qs) (ht : t.atInteger = false) (hu : u.Shows qs) :
    u.atInteger = false := by
  rw [Bool.eq_false_iff] at ht ⊢
  intro hinteger
  obtain ⟨raw, hraw⟩ := State.behindSign_of_atInteger hinteger
  have hbehind : u.behindSign = u := by simp [State.behindSign, h.unsigned rfl u hu]
  rw [hbehind] at hraw
  have hcurrent := (h.likes u hu).current?_back hraw rfl
  exact ht (by rw [State.atInteger, hcurrent])

theorem Ahead.atRangeMark (h : Ahead bound t qs) (hu : u.Shows qs) :
    u.atRangeMark = t.atRangeMark := by
  rw [State.atRangeMark, State.atRangeMark, (h.likes u hu).sees rfl, (h.likes u hu).sees rfl]

end Ahead

section RangeMark

variable {inclusive : Bool}

theorem detached_rangeMark : Detached (render (Piece.rangeMark inclusive :: qs)).toList := by
  obtain ⟨cs, hmark⟩ : ∃ cs, (Piece.rangeMark inclusive).text.toList = '.' :: '.' :: cs := by
    cases inclusive <;> exact ⟨_, rfl⟩
  rw [render_cons, hmark]
  rintro c ⟨⟩
  refine .inr ⟨rfl, ?_⟩
  rintro d ⟨⟩
  rfl

theorem written_rangeMark (hdetached : Detached (render qs).toList) (h : Written code n qs) :
    Written code n (Piece.rangeMark inclusive :: qs) :=
  .detached trivial rfl (by cases inclusive <;> decide) (fun _ => id) hdetached h

theorem written_rangeMark_begins (hbegins : Begins (render qs).toList) (h : Written code n qs) :
    Written code n (Piece.rangeMark inclusive :: qs) := by
  refine h.symbol (by cases inclusive <;> decide) (hbegins.stops ?_)
  cases inclusive <;> simp [Symbol.growsBy]

theorem State.Shows.rangeMark (h : u.Shows (Piece.rangeMark inclusive :: qs)) :
    u.current? = some (.symbol (if inclusive then .rangeInclusive else .range)) ∧
    u.atRangeMark = true := by
  have hcurrent := h.current? (by cases inclusive <;> decide)
  refine ⟨hcurrent, ?_⟩
  cases inclusive <;> simp [State.atRangeMark, State.sees, hcurrent]

theorem Echo.rangeMark (hw : Written code n qs → Written code n (Piece.rangeMark inclusive :: qs)) :
    Echo code Grammar.rangeMark inclusive n (Piece.rangeMark inclusive :: qs) n qs where
  written := hw
  answers {u} hu := by
    refine ⟨inclusive, u.advance, reads_rangeMark.2 ⟨?_, rfl⟩, rfl,
      hu.advance (by cases inclusive <;> decide), u.log_advance⟩
    rw [State.sees, hu.rangeMark.1]
    cases inclusive <;> rfl

theorem likes_rangeMark (hs : s.atRangeMark = true) (h : Reads Grammar.rangeMark s inclusive t) :
    Likes s (Piece.rangeMark inclusive :: qs) := by
  obtain ⟨hsees, -⟩ := reads_rangeMark.1 h
  refine likes_lexeme ?_ (by cases inclusive <;> decide) (by cases inclusive <;> decide)
  cases inclusive with
  | true => rw [State.current?_of_sees hsees.symm]; rfl
  | false =>
    rw [State.atRangeMark, ← hsees, Bool.or_false] at hs
    rw [State.current?_of_sees hs]
    rfl

end RangeMark

end Grammar

end ApiScript
