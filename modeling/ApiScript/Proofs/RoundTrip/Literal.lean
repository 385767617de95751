import ApiScript.Proofs.Numeral.Decoding
import ApiScript.Proofs.RoundTrip.Basic

set_option autoImplicit false
set_option relaxedAutoImplicit false

/-!
Literals as they are read from texts: each is written as one lexeme, behind a minus sign or none,
and is read from it again wherever that stands.
-/

namespace ApiScript

open Piece

/-- A literal as it is read: a number has a spelling of its class, behind a minus sign where it may
have one, and the value that the spelling stands for; a string is one text, if it is not empty, and
embeds no code. -/
inductive Literal.Writable : Literal → Prop
  | null (span : Span) : Writable (.null span)
  | bool (span : Span) (value : Bool) : Writable (.bool span value)
  | integer {span : Span} {sign raw : String} {value : Int} (hsign : sign ∈ ["", "-"])
    (hraw : raw.toList ∈ Rule.numeral .integer)
    (hvalue : Numeral.integer (sign ++ raw) span = .ok value) :
    Writable (.integer span (sign ++ raw) value)
  | float {span : Span} {sign raw : String} {value : Binary64} (hsign : sign ∈ ["", "-"])
    (hraw : raw.toList ∈ Rule.numeral .float)
    (hvalue : Numeral.float (sign ++ raw) span = .ok value) :
    Writable (.float span (sign ++ raw) value)
  | duration {span : Span} {raw : String} {value : Binary64} {unit : DurationUnit}
    (hraw : raw.toList ∈ Rule.numeral .duration)
    (hvalue : Numeral.duration raw span = .ok (value, unit)) :
    Writable (.duration span raw value unit)
  | size {span : Span} {raw : String} {value : Binary64} {unit : SizeUnit}
    (hraw : raw.toList ∈ Rule.numeral .size)
    (hvalue : Numeral.size raw span = .ok (value, unit)) : Writable (.size span raw value unit)
  | string {quote : Quote} {parts : List StringPart} {span : Span}
    (hparts : parts = [] ∨ ∃ text, text ≠ "" ∧ parts = [.text text]) :
    Writable (.string ⟨quote, parts, span⟩)
  | bytes (span : Span) (value : List UInt8) : Writable (.bytes span value)

def Literal.bare (l : Literal) : Literal := l.respan fun _ => .nowhere

/-- A lexeme behind a sign, which is a lexeme of its own. -/
def Piece.signed (sign : String) (l : Lexeme) : List Piece :=
  (if sign = "-" then [symbol .minus] else []) ++ [lexeme l]

section Numbers

variable {kind : NumberClass} {sign raw : String}

theorem Piece.number_signed (hsign : sign ∈ ["", "-"]) (hraw : raw.toList ∈ Rule.numeral kind) :
    number kind (sign ++ raw) = signed sign (.number kind raw) := by
  rcases List.mem_cons.1 hsign with rfl | hminus
  · obtain ⟨c, cs, htext, hdigit⟩ := Rule.numeral_head hraw
    rw [String.empty_append, number]
    split
    · rename_i digits heq
      obtain ⟨rfl, -⟩ := List.cons.inj (htext.symm.trans heq)
      cases hdigit
    · rfl
  · obtain rfl := List.mem_singleton.1 hminus
    have htext : ("-" ++ raw).toList = '-' :: raw.toList := by rw [String.toList_append]; rfl
    rw [number]
    split
    · rename_i digits heq
      obtain rfl : raw.toList = digits := (List.cons.inj (htext.symm.trans heq)).2
      rw [String.ofList_toList]
      rfl
    · rename_i hne
      exact absurd htext (hne _)

theorem Piece.number_unsigned (hraw : raw.toList ∈ Rule.numeral kind) :
    number kind raw = signed "" (.number kind raw) := by
  have h := @number_signed kind "" raw (by decide) hraw
  rwa [String.empty_append] at h

theorem Numeral.integer_anywhere {span : Span} {value : Int}
    (h : Numeral.integer raw span = .ok value) (span' : Span) :
    Numeral.integer raw span' = .ok value := integer_eq_ok.2 (integer_eq_ok.1 h)

theorem Numeral.float_anywhere {span : Span} {value : Binary64}
    (h : Numeral.float raw span = .ok value) (span' : Span) :
    Numeral.float raw span' = .ok value := by
  unfold Numeral.float at h ⊢
  split at h
  · exact h
  · cases h

theorem Numeral.quantity_anywhere {Unit : Type} {ofSuffix? : String → Option Unit}
    {noSuffix : NumberFault} {span : Span} {value : Binary64 × Unit}
    (h : Numeral.quantity kind ofSuffix? noSuffix raw span = .ok value) (span' : Span) :
    Numeral.quantity kind ofSuffix? noSuffix raw span' = .ok value := by
  unfold Numeral.quantity at h ⊢
  split at h
  · cases h
  · split at h
    · cases h
    · exact h

end Numbers

section Lexemes

variable {l : Lexeme} {rest : List Char}

theorem Begins.stops {s : Symbol} (hs : ∀ c, s.growsBy c = true → c = '=' ∨ c = '>')
    (h : Begins rest) :
    (Lexeme.symbol s).Stops rest := by
  obtain ⟨c, cs, rfl, hassign, hgreater⟩ := h
  intro d hd
  obtain rfl : c = d := Option.some.inj hd
  rw [Bool.eq_false_iff]
  intro hgrows
  rcases hs c hgrows with hc | hc
  · exact hassign hc
  · exact hgreater hc

theorem Lexeme.WellSpelled.begins (h : l.WellSpelled) (hl : l.isLiteral = true) :
    Begins l.spelling.toList := by
  cases l with
  | keyword k => exact (Rule.keyword_word k).begins
  | number kind text =>
    obtain ⟨c, cs, htext, hdigit⟩ := Rule.numeral_head h
    refine ⟨c, cs, htext, ?_, ?_⟩ <;>
    · rintro rfl
      cases hdigit
  | string kind text =>
    obtain ⟨body, htext, -⟩ := h
    rw [spelling, htext]
    cases kind <;> exact ⟨_, _, rfl, by decide, by decide⟩
  | _ => cases hl

theorem Lexeme.stops_of_isLiteral (hl : l.isLiteral = true) (hword : Bounds rest)
    (hnumber : Rule.goesOn rest = false) : l.isTrivia = false ∧ l.Stops rest := by
  cases l with
  | keyword k => exact ⟨rfl, hword⟩
  | number kind text => exact ⟨rfl, hnumber⟩
  | string kind text => exact ⟨rfl, trivial⟩
  | _ => cases hl

end Lexemes

namespace Literal

/-- How a literal is written: as a lexeme behind a sign, which it is read from wherever it
stands. -/
structure Spelled (l : Literal) (sign : String) (found : Lexeme) : Prop where
  layout : l.layout 0 = signed sign found
  wellSpelled : found.WellSpelled
  isLiteral : found.isLiteral = true
  signable : sign = "" ∨ sign = "-" ∧ found.isSignable = true
  reads (inner : Grammar.Inner) (s : Grammar.State) (hsign : s.sign = sign)
    (hs : s.behindSign.current? = some found) :
    ∃ l', Grammar.Reads (Grammar.literal inner) s l' s.behindSign.advance ∧ l'.bare = l.bare

theorem Spelled.of_denotes {l : Literal} {sign : String} {found : Lexeme}
    (hlayout : l.layout 0 = signed sign found) (hspelled : found.WellSpelled)
    (hliteral : found.isLiteral = true) (hsign : sign = "" ∨ sign = "-" ∧ found.isSignable = true)
    (h : ∀ span, ∃ l', Grammar.Denotes sign span found l' ∧ l'.bare = l.bare) :
    l.Spelled sign found where
  layout := hlayout
  wellSpelled := hspelled
  isLiteral := hliteral
  signable := hsign
  reads inner s hs hfound := by
    obtain ⟨l', hl', hbare⟩ := h (s.currentSpan.merge s.behindSign.currentSpan)
    rw [← hs] at hl'
    exact ⟨l', Grammar.reads_literal_of_denotes hfound hl', hbare⟩

private theorem encode_text {quote : Quote} {parts : List StringPart}
    (h : parts = [] ∨ ∃ text, text ≠ "" ∧ parts = [.text text]) :
    ∃ text, parts = Grammar.textParts text ∧ StringPart.encode quote 0 parts =
      Quoted.encode quote text.toList := by
  rcases h with rfl | ⟨text, htext, rfl⟩
  · exact ⟨"", rfl, rfl⟩
  · refine ⟨text, (if_neg (by simpa using htext)).symm, ?_⟩
    rw [StringPart.encode, StringPart.encode, List.append_nil]

private theorem signable_of_mem {sign : String} (h : sign ∈ ["", "-"]) {l : Lexeme}
    (hl : l.isSignable = true) :
    sign = "" ∨ sign = "-" ∧ l.isSignable = true := by
  rcases List.mem_cons.1 h with rfl | h
  · exact .inl rfl
  · exact .inr ⟨List.mem_singleton.1 h, hl⟩

private theorem Writable.exists_spelled {l : Literal} (h : l.Writable) :
    ∃ sign found, l.Spelled sign found := by
  cases h with
  | null span =>
    exact ⟨"", .keyword .null, .of_denotes rfl trivial rfl (.inl rfl) fun _ => ⟨_, .null, rfl⟩⟩
  | bool span value =>
    cases value with
    | true =>
      exact ⟨"", .keyword .true_, .of_denotes rfl trivial rfl (.inl rfl) fun _ =>
        ⟨_, .true_, rfl⟩⟩
    | false =>
      exact ⟨"", .keyword .false_, .of_denotes rfl trivial rfl (.inl rfl) fun _ =>
        ⟨_, .false_, rfl⟩⟩
  | @integer span sign raw value hsign hraw hvalue =>
    refine ⟨sign, .number .integer raw,
      .of_denotes ?_ hraw rfl (signable_of_mem hsign rfl) fun span' => ?_⟩
    · exact number_signed hsign hraw
    · exact ⟨_, .integer (Numeral.integer_anywhere hvalue span'), rfl⟩
  | @float span sign raw value hsign hraw hvalue =>
    refine ⟨sign, .number .float raw,
      .of_denotes ?_ hraw rfl (signable_of_mem hsign rfl) fun span' => ?_⟩
    · exact number_signed hsign hraw
    · exact ⟨_, .float (Numeral.float_anywhere hvalue span'), rfl⟩
  | @duration span raw value unit hraw hvalue =>
    refine ⟨"", .number .duration raw, .of_denotes ?_ hraw rfl (.inl rfl) fun span' => ?_⟩
    · exact number_unsigned hraw
    · exact ⟨_, .duration (Numeral.quantity_anywhere hvalue span'), rfl⟩
  | @size span raw value unit hraw hvalue =>
    refine ⟨"", .number .size raw, .of_denotes ?_ hraw rfl (.inl rfl) fun span' => ?_⟩
    · exact number_unsigned hraw
    · exact ⟨_, .size (Numeral.quantity_anywhere hvalue span'), rfl⟩
  | bytes span value =>
    refine ⟨"", Quoted.bytesLexeme value, .of_denotes rfl (Quoted.bytesLexeme_wellSpelled value) rfl
      (.inl rfl) ?_⟩
    exact fun span' => ⟨_, .bytes (Quoted.decodeBytes_encode value span'), rfl⟩
  | @string quote parts span hparts =>
    obtain ⟨text, rfl, hencode⟩ := @encode_text quote parts hparts
    refine ⟨"", Quoted.lexeme quote (Quoted.encode quote text.toList), ?_,
      Quoted.lexeme_wellSpelled quote text, rfl, .inl rfl, ?_⟩
    · rw [layout, StringLiteral.layout, hencode]
      rfl
    · intro inner s hsign hs
      have hnegative : s.atNegativeNumber = false := by
        cases hnegative : s.atNegativeNumber with
        | true => simp [Grammar.State.sign, hnegative] at hsign
        | false => rfl
      have hbehind : s.behindSign = s := by simp [Grammar.State.behindSign, hnegative]
      rw [hbehind] at hs ⊢
      obtain ⟨⟨_, found⟩, rest, hafter, rfl⟩ := Grammar.State.after_of_current? hs
      refine ⟨_, Grammar.reads_literal_text hafter ?_ ?_, rfl⟩
      · rintro rfl
        exact Quoted.split_encode text found
      · rintro rfl
        exact Quoted.decodeSimple_encode text found

section Written

variable {l : Literal} {sign : String} {found : Lexeme} {rest : List Char}

private theorem Spelled.begins (h : l.Spelled sign found) :
    Begins (render (l.layout 0)).toList := by
  have hfound : Begins (render [lexeme found]).toList := by
    rw [render_cons]
    exact (h.wellSpelled.begins h.isLiteral).append _
  rw [h.layout, signed]
  split
  · exact ⟨'-', _, by rw [List.singleton_append, render_cons]; rfl, by decide, by decide⟩
  · exact hfound

private theorem Spelled.clear (h : l.Spelled sign found) (hword : Bounds rest)
    (hnumber : Rule.goesOn rest = false) :
    Clear (l.layout 0) rest := by
  obtain ⟨htrivia, hstops⟩ := Lexeme.stops_of_isLiteral h.isLiteral hword hnumber
  have hfound : Clear [lexeme found] rest := ⟨⟨h.wellSpelled, htrivia, hstops⟩, trivial⟩
  rw [h.layout, signed]
  split
  · have hbegins : Begins ((render [lexeme found]).toList ++ rest) := by
      rw [render_cons, List.append_assoc]
      exact (h.wellSpelled.begins h.isLiteral).append _
    refine clear_append.2 ⟨⟨⟨trivial, rfl, hbegins.stops ?_⟩, trivial⟩, hfound⟩
    simp [Symbol.growsBy]
  · exact hfound

theorem Writable.begins (h : l.Writable) : Begins (render (l.layout 0)).toList := by
  obtain ⟨sign, found, hspelled⟩ := h.exists_spelled
  exact hspelled.begins

theorem Writable.clear (h : l.Writable) (hword : Bounds rest) (hnumber : Rule.goesOn rest = false) :
    Clear (l.layout 0) rest := by
  obtain ⟨sign, found, hspelled⟩ := h.exists_spelled
  exact hspelled.clear hword hnumber

end Written

end Literal

namespace Grammar

variable {s : State} {l : Literal} {sign : String} {found : Lexeme} {rest : List Token}

theorem State.at_signed (hsign : sign = "" ∨ sign = "-" ∧ found.isSignable = true)
    (hliteral : found.isLiteral = true) (hs : s.InFront (signed sign found) rest) :
    s.atLiteral = true ∧ s.sign = sign ∧
      s.behindSign.current? = some found ∧ s.behindSign.advance.after = rest := by
  rcases hsign with rfl | ⟨rfl, hsignable⟩
  · have hfront : s.InFront [lexeme found] rest := hs
    have hminus : found ≠ .symbol .minus := by
      rintro rfl
      cases hliteral
    have hnegative : s.atNegativeNumber = false :=
      State.atNegativeNumber_of_current? hfront.current? hminus
    have hbehind : s.behindSign = s := by simp [State.behindSign, hnegative]
    rw [hbehind]
    refine ⟨?_, ?_, hfront.current?, hfront.advance.nil⟩
    · simp [State.atLiteral, hfront.current?, hliteral]
    · simp [State.sign, hnegative]
  · have hfront : s.InFront [symbol .minus, lexeme found] rest := hs
    have hnegative : s.atNegativeNumber = true := by
      obtain ⟨offset, hafter⟩ := hfront
      exact State.atNegativeNumber_iff.2 ⟨_, _, _, hafter, rfl, hsignable, beq_self_eq_true _⟩
    have hbehind : s.behindSign = s.advance := by simp [State.behindSign, hnegative]
    rw [hbehind]
    refine ⟨?_, ?_, hfront.advance.current?, hfront.advance.advance.nil⟩
    · simp [State.atLiteral, hnegative]
    · simp [State.sign, hnegative]

theorem State.log_behindSign (s : State) : s.behindSign.log = s.log := by
  unfold State.behindSign
  split
  · exact State.log_advance s
  · rfl

theorem readsBack_literal (inner : Inner) (h : l.Writable) :
    ReadsBack (literal inner) (l.layout 0) (fun _ => True) (·.bare = l.bare) := by
  obtain ⟨sign, found, hspelled⟩ := h.exists_spelled
  intro s rest hs _
  rw [hspelled.layout] at hs
  obtain ⟨-, hsign, hfound, hafter⟩ := State.at_signed hspelled.signable hspelled.isLiteral hs
  obtain ⟨l', hl', hbare⟩ := hspelled.reads inner s hsign hfound
  exact ⟨l', _, hl', hbare, hafter, (State.log_advance _).trans s.log_behindSign⟩

theorem State.InFront.atLiteral (h : l.Writable) (hs : s.InFront (l.layout 0) rest) :
    s.atLiteral = true := by
  obtain ⟨sign, found, hspelled⟩ := h.exists_spelled
  rw [hspelled.layout] at hs
  exact (State.at_signed hspelled.signable hspelled.isLiteral hs).1

end Grammar

end ApiScript
