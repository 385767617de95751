import ApiScript.Proofs.Ladder.Reread
import ApiScript.Proofs.Lexing.Body
import ApiScript.Proofs.Spelling.Program

set_option autoImplicit false
set_option relaxedAutoImplicit false

/-!
A string by itself: what a text or bytes are written as is one token, and it is read as the text or
the bytes again.
-/

namespace ApiScript

namespace Grammar

variable {inner : Inner} {s t : State}

/-- A primary form is all of an expression where nothing behind it binds it. -/
theorem reads_pipe_primary [∀ e, Advances (inner e)] {e : Expr} (h : Starts inner s e t)
    (hend : ∀ l ∈ t.current?, l.tightness < 1) : Reads (pipe inner) s e t := by
  have hloose {k : Nat} (hk : 1 ≤ k) : ∀ l ∈ t.current?, l.tightness < k :=
    fun l hl => Nat.lt_of_lt_of_le (hend l hl) hk
  have hunary : Reads (unary inner) s e t := by
    unfold unary
    rw [reads_get_bind, unaryOp?_of_primary h.1]
    exact reads_postfixed h
      ((reads_repeated suffix?_productive).2 (.done (suffix?_end (hloose (by decide)))))
  have hbinary (levels : List Nat) (hlevels : ∀ k ∈ levels, 1 ≤ k) :
      Reads (binary inner levels) s e t := by
    induction levels with
    | nil => exact hunary
    | cons k levels ih =>
      obtain ⟨hk, hlevels⟩ := List.forall_mem_cons.1 hlevels
      exact reads_bind.2 ⟨e, t, ih hlevels, (reads_repeated extend?_productive).2
        (.done (extend?_end (fun _ _ => tightness_of_operatorOf) (hloose hk)))⟩
  rw [pipe_eq]
  exact reads_bind.2 ⟨e, t, hbinary _ (by decide), (reads_repeated extend?_productive).2
    (.done (extend?_end (fun _ _ => tightness_of_pipeOf) hend))⟩

theorem reads_pipe_alone [∀ e, Advances (inner e)] {e : Expr} (h : Starts inner s e t)
    (hend : t.current? = none) :
    Reads (pipe inner) s e t := by
  refine reads_pipe_primary h ?_
  rw [hend]
  nofun

section Text

/-- The parts of a string of one text, or of none where it is empty. -/
def textParts (text : String) : List StringPart := if text.isEmpty then [] else [.text text]

variable {quote : Quote} {raw text : String} {span : Span} {rest : List Token}
  (hs : s.after = ⟨.string quote.stringClass raw, span⟩ :: rest)
  (hdouble : quote = .double →
  Quoted.split raw span = .ok (if text.isEmpty then [] else [.text text]))
  (hsingle : quote = .single → Quoted.decodeSimple raw span = .ok text)

include hs hdouble hsingle

theorem reads_string_text (expected : Expectation) :
    Reads (string inner expected) s ⟨quote, textParts text, span⟩ s.advance := by
  have hcurrent : s.current? = some (.string quote.stringClass raw) := by
    simp [State.current?, State.peek?, hs]
  have hspan : s.currentSpan = span := by simp only [State.currentSpan, hs]
  unfold string
  rw [reads_get_bind]
  cases quote with
  | double =>
    have hparts :
        Reads (stringParts inner (if text.isEmpty then [] else [.text text])) s
          (textParts text) s := by
      unfold textParts
      split
      · exact reads_pure.2 ⟨rfl, rfl⟩
      · exact reads_bind.2 ⟨[], s, reads_pure.2 ⟨rfl, rfl⟩, reads_pure.2 ⟨rfl, rfl⟩⟩
    simp only [hcurrent, hspan, Quote.stringClass]
    exact reads_bind.2 ⟨_, s, reads_decoded.2 ⟨hdouble rfl, rfl⟩, reads_bind.2 ⟨_, s, hparts,
      reads_bind.2 ⟨(), _, reads_advance.2 rfl, reads_pure.2 ⟨rfl, rfl⟩⟩⟩⟩
  | single =>
    simp only [hcurrent, hspan, Quote.stringClass]
    exact reads_bind.2 ⟨_, s, reads_decoded.2 ⟨hsingle rfl, rfl⟩,
      reads_bind.2 ⟨(), _, reads_advance.2 rfl, reads_pure.2 ⟨rfl, rfl⟩⟩⟩

theorem reads_literal_text :
    Reads (literal inner) s (.string ⟨quote, textParts text, span⟩) s.advance := by
  have hcurrent : s.current? = some (.string quote.stringClass raw) := by
    simp [State.current?, State.peek?, hs]
  have hsign : s.atNegativeNumber = false := State.atNegativeNumber_of_current? hcurrent (by simp)
  have hstring : Reads (string inner .literal) s ⟨quote, textParts text, span⟩ s.advance :=
    reads_string_text hs hdouble hsingle .literal
  unfold literal
  rw [reads_get_bind, hsign]
  simp only [Bool.false_eq_true, ↓reduceIte]
  rw [reads_get_bind, hcurrent]
  cases quote <;> exact reads_bind.2 ⟨_, _, hstring, reads_pure.2 ⟨rfl, rfl⟩⟩

private theorem starts_text :
    Starts inner s (.literal (.string ⟨quote, textParts text, span⟩)) s.advance := by
  have hcurrent : s.current? = some (.string quote.stringClass raw) := by
    simp [State.current?, State.peek?, hs]
  refine ⟨?_, rfl⟩
  unfold primary
  rw [reads_get_bind, hcurrent]
  have hat : s.atLiteral = true := by simp [State.atLiteral, hcurrent, Lexeme.isLiteral]
  simp only [hat, ↓reduceIte]
  unfold literalOrRange
  refine reads_bind.2 ⟨_, _, reads_literal_text hs hdouble hsingle, ?_⟩
  rw [reads_get_bind]
  simp only [Literal.integer?, Option.isSome_none, Bool.false_eq_true, false_and, ↓reduceIte]
  exact reads_pure.2 ⟨rfl, rfl⟩

end Text

end Grammar

open Grammar

private theorem Lexer.tokenize_alone {l : Lexeme} (h : l.WellSpelled) :
    (ofString l.spelling 0).tokenize = ([⟨l, ⟨0, l.spelling.utf8ByteSize⟩⟩], []) := by
  have htokenize := tokenize_spelling h 0
  rwa [Nat.zero_add, ← Text.utf8ByteSize_eq] at htokenize

private theorem Grammar.State.ofString_spelling {l : Lexeme} (h : l.WellSpelled)
    (hmeaningful : l.isTrivia = false) :
    (State.ofString l.spelling 0).after = [⟨l, ⟨0, l.spelling.utf8ByteSize⟩⟩] ∧
    (State.ofString l.spelling 0).log = [] := by
  have hvalid : l ≠ .invalid := by
    rintro rfl
    exact h
  simp only [State.ofString, Lexer.tokenizeFiltered, Lexer.tokenize_alone h]
  simp [hmeaningful, hvalid]

private theorem Grammar.State.advance_last {s : State} {t : Token} (h : s.after = [t]) :
    s.advance.after = [] ∧ s.advance.log = s.log := by simp [advance, h]

private theorem Piece.render_lexeme (l : Lexeme) : render [lexeme l] = l.spelling := by
  simp [render, text]

private theorem Literal.print_text (quote : Quote) (text : String) (span : Span) :
    (Literal.string ⟨quote, [.text text], span⟩).print =
      (Quoted.lexeme quote (Quoted.encode quote text.toList)).spelling := by
  rw [print, layout, StringLiteral.layout, Piece.render_lexeme, StringPart.encode,
    StringPart.encode, List.append_nil]

private theorem Literal.print_bytes (value : List UInt8) (span : Span) :
    (Literal.bytes span value).print = (Quoted.bytesLexeme value).spelling := by
  rw [print, layout, Piece.render_lexeme]

/-- What a string literal is written as is one token that is decoded to what was written: a text
between either quotes is read as that text between the same quotes, and bytes are decoded to the
bytes. -/
theorem print_literal_decodes :
    (∀ (quote : Quote) (text : String) (span : Span), text ≠ "" →
      let printed := (Literal.string ⟨quote, [.text text], span⟩).print
      (Lexer.ofString printed 0).tokenize =
        ([⟨.string quote.stringClass printed, ⟨0, printed.utf8ByteSize⟩⟩], []) ∧
        parseExpr printed =
          (some (.literal (.string ⟨quote, [.text text], ⟨0, printed.utf8ByteSize⟩⟩)), [])) ∧
    ∀ (value : List UInt8) (span : Span),
      let printed := (Literal.bytes span value).print
      (Lexer.ofString printed 0).tokenize =
        ([⟨.string .bytes printed, ⟨0, printed.utf8ByteSize⟩⟩], []) ∧
        Quoted.decodeBytes printed ⟨0, printed.utf8ByteSize⟩ = .ok value := by
  refine ⟨fun quote text span htext => ?_, fun value span => ?_⟩
  · rw [Literal.print_text]
    have hspelled := Quoted.lexeme_wellSpelled quote text
    refine ⟨Lexer.tokenize_alone hspelled, ?_⟩
    obtain ⟨hafter, hlog⟩ := State.ofString_spelling hspelled rfl
    have hparts : textParts text = [.text text] := if_neg (by simpa using htext)
    have hstarts :=
      @starts_text (enter Session.defaultLimit (Session.defaultLimit - 1)) _ quote _ text _ _ hafter
      (by rintro rfl; exact Quoted.split_encode text _)
      (by rintro rfl; exact Quoted.decodeSimple_encode text _)
    rw [hparts] at hstarts
    obtain ⟨hbehind, hkept⟩ := State.advance_last hafter
    refine parseExpr_eq_some.2
      ⟨_, reads_wholeExpression.2 ⟨broken_of_log_nil hlog, reads_pipe_alone hstarts ?_, ?_⟩,
      hkept.trans hlog⟩
    · simp [State.current?, State.peek?, hbehind]
    · simp [State.atEnd, hbehind]
  · rw [Literal.print_bytes]
    exact ⟨Lexer.tokenize_alone (Quoted.bytesLexeme_wellSpelled value),
      Quoted.decodeBytes_encode value _⟩

/-- An escape of each kind in each of the quotes. -/
theorem print_literal_decodes_of_escapes :
    let text := "\"'\\\n$\x7b$\x00" ++ "1\u0085é"
    let printed := (Literal.string ⟨.double, [.text text], ⟨3, 7⟩⟩).print
    text ≠ "" ∧
      (Lexer.ofString printed 0).tokenize =
        ([⟨.string .interpolated printed, ⟨0, printed.utf8ByteSize⟩⟩], []) ∧
      parseExpr printed =
          (some (.literal (.string ⟨.double, [.text text], ⟨0, printed.utf8ByteSize⟩⟩)), []) := by
  intro text printed
  have htext : text ≠ "" := by decide +kernel
  exact ⟨htext, print_literal_decodes.1 .double text ⟨3, 7⟩ htext⟩

end ApiScript
