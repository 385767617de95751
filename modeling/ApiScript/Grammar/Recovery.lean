import ApiScript.Grammar.State

set_option autoImplicit false
set_option relaxedAutoImplicit false

/-!
Recovery from a failed statement: the tokens up to the next one that can start a statement, or that
ends the block, are skipped.
-/

namespace ApiScript.Grammar

/-- What a failed statement is part of. -/
inductive Surroundings
  | script | block | runBlock
  deriving DecidableEq

/-- Whether skipping may stop in front of the tokens, outside of any brackets opened since. -/
def Surroundings.resumesAt (surroundings : Surroundings) : List Token → Bool
  | [] => true
  | t :: ts =>
    (t.lexeme.opensDeclaration && !State.startsStep (t :: ts)) ||
      (surroundings != .script && t.lexeme == .symbol .rightBrace) ||
      (surroundings == .runBlock && State.startsStep (t :: ts))

/-- The number of open brackets behind a lexeme; a closer without an opener changes nothing. -/
def openBrackets (opened : Nat) : Lexeme → Nat
  | .symbol .leftParen | .symbol .leftBracket | .symbol .leftBrace => opened + 1
  | .symbol .rightParen | .symbol .rightBracket | .symbol .rightBrace => opened - 1
  | _ => opened

/-- Skips tokens, of which the first is skipped whatever it is where `must` says so. -/
def skip (surroundings : Surroundings) (must : Bool) (opened : Nat) (before : List Token) :
    List Token → List Token × List Token
  | [] => (before, [])
  | t :: ts =>
    if opened = 0 ∧ must = false ∧ surroundings.resumesAt (t :: ts) then (before, t :: ts)
    else skip surroundings false (openBrackets opened t.lexeme) (t :: before) ts

/-- Recovers from the failure of a statement in front of which `start` tokens had been read. A
statement that failed at its first token loses that token. -/
def State.recover (s : State) (surroundings : Surroundings) (start : Nat) : State :=
  let (before, after) := skip surroundings (s.before.length == start) 0 s.before s.after
  { s with before, after }

end ApiScript.Grammar
