import ApiScript.Grammar.Nesting

set_option autoImplicit false
set_option relaxedAutoImplicit false

/-!
Sessions: several scripts or expressions read from one text, one behind the other, and the two
common cases of a single one.
-/

namespace ApiScript

open Grammar

/-- A text that is being read, with the limit of nesting in it. -/
structure Session where
  limit : Nat
  state : State

namespace Session

def defaultLimit : Nat := 48

def ofString (source : String) (limit : Nat) : Session := ⟨limit, .ofString source 0⟩

def diagnostics (s : Session) : List Diagnostic := s.state.log

def inner (s : Session) : Inner := enter s.limit s.limit

/-- Reads the rest of the text as a script, which does not fail as a whole. -/
def program (s : Session) : Program × Session :=
  match (script s.inner).run s.state with
  | .ok p state => (p, { s with state })
  | .error _ state => (⟨[], state.area⟩, { s with state })

/-- Reads the rest of the text as one expression. The diagnostic of a failure is not among those of
the session. -/
def expression (s : Session) : Except Diagnostic Expr × Session :=
  match (wholeExpression s.inner).run s.state with
  | .ok e state => (.ok e, { s with state })
  | .error d state => (.error d, { s with state })

end Session

/-- Reads a script, with all that is wrong with it. -/
def parse (source : String) (limit : Nat) : Program × List Diagnostic :=
  let (p, s) := (Session.ofString source limit).program
  (p, s.diagnostics)

/-- Reads a text that holds one expression; the diagnostics tell why there is none. -/
def parseExpr (source : String) : Option Expr × List Diagnostic :=
  match (Session.ofString source Session.defaultLimit).expression with
  | (.ok e, s) => (some e, s.diagnostics)
  | (.error d, s) => (none, s.diagnostics ++ [d])

end ApiScript
