import ApiScript.Grammar.State
import ApiScript.Quoted.Decode

set_option autoImplicit false
set_option relaxedAutoImplicit false

/-!
Marks: what a tree says of the tokens it is written with. A list of marks is spelled by the tokens
that stand for them in order, where three things are free: a comma in front of some closers, the
spelling of two bars, and the escapes of a string.
-/

namespace ApiScript

open Grammar

def Grammar.State.ahead (ts : List Token) : State := ⟨⟨0, 0⟩, false, [], ts, []⟩

/-- What is asked of the tokens behind one. -/
inductive Follow
  /-- Anything may follow. -/
  | any
  /-- The next token is written against it. -/
  | joined
  /-- No number that could take a sign is written against it. -/
  | unsigned
  /-- No integer follows. -/
  | noInteger
  /-- No literal follows. -/
  | noLiteral
  /-- Neither a point nor an opening parenthesis is written against it. -/
  | bare
  /-- No opening parenthesis is written against it. -/
  | unapplied
  deriving DecidableEq

namespace Follow

def Against (t : Token) (rest : List Token) (l : Lexeme) : Prop :=
  ∃ u ∈ rest.head?, u.lexeme = l ∧ t.span.touches u.span = true

def Holds (t : Token) (rest : List Token) : Follow → Prop
  | any => True
  | joined => ∃ u ∈ rest.head?, t.span.touches u.span = true
  | unsigned => (State.ahead (t :: rest)).atNegativeNumber = false
  | noInteger => (State.ahead rest).atInteger = false
  | noLiteral => (State.ahead rest).atLiteral = false
  | bare => ¬Against t rest (.symbol .dot) ∧ ¬Against t rest (.symbol .leftParen)
  | unapplied => ¬Against t rest (.symbol .leftParen)

end Follow

mutual

/-- A part of a tree's spelling. -/
inductive Mark
  | lexeme (lexeme : Lexeme) (follow : Follow)
  /-- A closer that a comma may stand in front of. -/
  | trailing (closer : Symbol)
  /-- Two bars, apart or as one symbol. -/
  | bars
  /-- A string of the given parts, whatever its escapes. -/
  | quoted (quote : Quote) (parts : List Part)
  | bytes (value : List UInt8)
  /-- The end of a statement, or the start of the first one. One that ends in an expression could go
  on with the symbol of two bars. -/
  | seam (open_ : Bool)
  /-- All of a node with its span. -/
  | node (span : Span) (marks : List Mark)

/-- A part of a string: text, or code by its marks. -/
inductive Part
  | text (text : String)
  | code (marks : List Mark)

end

def Span.Covers (span : Span) (ts : List Token) : Prop :=
  (∃ t ∈ ts.head?, span.start = t.span.start) ∧ ∃ t ∈ ts.getLast?, span.stop = t.span.stop

def Part.ofText (text : String) : List Part := if text.isEmpty then [] else [.text text]

mutual

/-- The tokens `ts` stand for the mark, with `rest` behind them. Where `lax` holds, tokens may have
been skipped between statements. -/
def Mark.Spelled (lax : Bool) : Mark → List Token → List Token → Prop
  | .lexeme l follow, ts, rest => ∃ t, ts = [t] ∧ t.lexeme = l ∧ follow.Holds t rest
  | .trailing closer, ts, _ =>
    ts.map (·.lexeme) = [.symbol closer] ∨ ts.map (·.lexeme) = [.symbol .comma, .symbol closer]
  | .bars, ts, _ =>
    ts.map (·.lexeme) = [.symbol .or] ∨ ts.map (·.lexeme) = [.symbol .bar, .symbol .bar]
  | .quoted .double parts, ts, _ =>
    ∃ t raw segments, ts = [t] ∧ t.lexeme = .string .interpolated raw ∧
      Quoted.split raw t.span = .ok segments ∧ Part.SpelledAll lax parts segments
  | .quoted .single parts, ts, _ => ∃ t raw text, ts = [t] ∧ t.lexeme = .string .simple raw ∧
      Quoted.decodeSimple raw t.span = .ok text ∧ parts = Part.ofText text
  | .bytes value, ts, _ => ∃ t raw, ts = [t] ∧ t.lexeme = .string .bytes raw ∧
      Quoted.decodeBytes raw t.span = .ok value
  | .seam open_, ts, rest =>
    lax = true ∨ ts = [] ∧ (open_ = true → ∀ t ∈ rest.head?, t.lexeme ≠ .symbol .or)
  | .node span marks, ts, rest => span.Covers ts ∧ Mark.SpelledAll lax marks ts rest

def Mark.SpelledAll (lax : Bool) : List Mark → List Token → List Token → Prop
  | [], ts, _ => ts = []
  | m :: ms, ts, rest =>
    ∃ us vs, ts = us ++ vs ∧ m.Spelled lax us (vs ++ rest) ∧ Mark.SpelledAll lax ms vs rest

/-- The segments of a string stand for its parts; embedded code is spelled by all tokens of its
text. -/
def Part.SpelledAll (lax : Bool) : List Part → List Quoted.Segment → Prop
  | [], segments => segments = []
  | .text text :: parts, segments =>
    ∃ rest, segments = .text text :: rest ∧ Part.SpelledAll lax parts rest
  | .code marks :: parts, segments => ∃ source offset rest, segments = .code source offset :: rest ∧
      (State.ofString source offset).broken = false ∧
      (lax = true ∨ (State.ofString source offset).log = []) ∧
      Mark.SpelledAll lax marks (State.ofString source offset).after [] ∧
      Part.SpelledAll lax parts rest

end

namespace Mark

variable {lax : Bool} {ms ns : List Mark} {ts us rest : List Token}

theorem SpelledAll.append (h : SpelledAll lax ms ts (us ++ rest)) (k : SpelledAll lax ns us rest) :
    SpelledAll lax (ms ++ ns) (ts ++ us) rest := by
  induction ms generalizing ts with
  | nil =>
    simp only [SpelledAll] at h
    rw [h]
    exact k
  | cons m ms ih =>
    simp only [SpelledAll, List.cons_append] at h ⊢
    obtain ⟨vs, ws, rfl, hm, hms⟩ := h
    refine ⟨vs, ws ++ us, List.append_assoc _ _ _, ?_, ih hms⟩
    rwa [List.append_assoc]

theorem spelledAll_append :
    SpelledAll lax (ms ++ ns) ts rest ↔
      ∃ us vs, ts = us ++ vs ∧ SpelledAll lax ms us (vs ++ rest) ∧ SpelledAll lax ns vs rest := by
  constructor
  · intro h
    induction ms generalizing ts with
    | nil => exact ⟨[], ts, rfl, by simp only [SpelledAll], h⟩
    | cons m ms ih =>
      simp only [SpelledAll, List.cons_append] at h ⊢
      obtain ⟨us, ws, rfl, hm, hms⟩ := h
      obtain ⟨vs, xs, rfl, hvs, hxs⟩ := ih hms
      refine ⟨us ++ vs, xs, (List.append_assoc _ _ _).symm, ⟨us, vs, rfl, ?_, hvs⟩, hxs⟩
      rwa [← List.append_assoc]
  · rintro ⟨us, vs, rfl, hms, hns⟩
    exact hms.append hns

theorem spelledAll_singleton {m : Mark} : SpelledAll lax [m] ts rest ↔ m.Spelled lax ts rest := by
  simp only [SpelledAll]
  exact ⟨fun ⟨us, vs, hts, hm, hvs⟩ => by
    simpa [hts, hvs] using hm, fun h => ⟨ts, [], by simpa using h⟩⟩

abbrev plain (l : Lexeme) : Mark := .lexeme l .any

abbrev keyword (k : Keyword) : Mark := plain (.keyword k)

abbrev symbol (s : Symbol) : Mark := plain (.symbol s)

def separated (separator : Symbol) : List (List Mark) → List Mark
  | [] => []
  | ms :: mss => ms ++ mss.flatMap (symbol separator :: ·)

/-- Items with commas between them in brackets; `more` says whether a comma may follow the last
one. -/
def listed (opener closer : Symbol) (more : Bool) : List (List Mark) → List Mark
  | [] => [symbol opener, symbol closer]
  | mss => symbol opener :: separated .comma mss ++
    [if more then .trailing closer else symbol closer]

/-- A number, whose sign is a token of its own. -/
def number (kind : NumberClass) (raw : String) : List Mark :=
  match raw.toList with
  | '-' :: digits => [.lexeme (.symbol .minus) .joined, plain (.number kind (String.ofList digits))]
  | _ => [plain (.number kind raw)]

/-- A mark of a range, with what may not follow a range without an end. -/
def rangeMark (inclusive : Bool) (follow : Follow) : Mark :=
  .lexeme (.symbol (if inclusive then .rangeInclusive else .range)) follow

end Mark

end ApiScript
