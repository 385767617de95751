import ApiScript.Lexeme.Fault

set_option autoImplicit false
set_option relaxedAutoImplicit false

/-!
Diagnostics: what is wrong with a script and where. A problem is a cause; its wording is in
`message`, `label` and `help?`, and nowhere else.
-/

namespace ApiScript

/-- What the grammar asks for at some place. -/
inductive Expectation
  | lexeme (lexeme : Lexeme)
  | expression | endOfExpression | embeddedExpression
  | literal | rangeEnd
  | memberName | environmentName | fieldName | patternFieldName | lambdaParameter
  | emitFormat | emitFormatBeforeArguments
  | operationName | protocolName | methodName | requestTarget
  | profileName | functionName | parameterName | functionBody
  | moduleName | importedName | moduleNameOrEnd
  | runTarget | runItem | pathStart | pathStep
  deriving DecidableEq

namespace Expectation

def describe : Expectation → String
  | lexeme l => l.describe
  | expression => "expression"
  | endOfExpression => "end of expression"
  | embeddedExpression => "expression inside '$\x7b...\x7d'"
  | literal => "literal"
  | rangeEnd => "integer literal after '..'"
  | memberName => "field name after '.'"
  | environmentName => "environment variable name after 'env.'"
  | fieldName => "field name"
  | patternFieldName => "field name in object pattern"
  | lambdaParameter => "lambda parameter"
  | emitFormat => "output format after 'emit.'"
  | emitFormatBeforeArguments =>
    "'.' and an output format before emit arguments, as in `emit.json(...)`"
  | operationName => "operation name"
  | protocolName => "protocol name"
  | methodName => "method name"
  | requestTarget => "request target string"
  | profileName => "profile name"
  | functionName => "function name"
  | parameterName => "parameter name"
  | functionBody => "'=' or '\x7b' to start the function body"
  | moduleName => "module name"
  | importedName => "name to import"
  | moduleNameOrEnd => "module name, '*' or '\x7b' after '::'"
  | runTarget => "operation or function name after 'run'"
  | runItem => "run step, path or declaration"
  | pathStart => "step name in path"
  | pathStep => "step name after '->'"

end Expectation

/-- What stands at some place: a lexeme, or the end of the text. -/
def describeFound : Option Lexeme → String
  | some l => l.describe
  | none => "end of input"

inductive Delimiter
  | parenthesis | bracket | brace | bar
  deriving DecidableEq

namespace Delimiter

def describe : Delimiter → String
  | parenthesis => "parenthesis"
  | bracket => "bracket"
  | brace => "brace"
  | bar => "parameter list"

def closer : Delimiter → Lexeme
  | parenthesis => .symbol .rightParen
  | bracket => .symbol .rightBracket
  | brace => .symbol .rightBrace
  | bar => .symbol .bar

end Delimiter

inductive Problem
  | unexpectedToken (expected : Expectation) (found : Lexeme)
  | unexpectedEnd (expected : Expectation)
  | missingOperand (operator : Lexeme) (found : Option Lexeme)
  /-- `list` tells whether another item could have followed. -/
  | unclosed (delimiter : Delimiter) (list : Bool) (found : Option Lexeme) (opener : Span)
  | invalidPattern (hint : String)
  | ambiguous (hint : String)
  | tooDeep (limit : Nat)
  | lexical (fault : LexicalFault)
  deriving DecidableEq

namespace Problem

/-- What may stand where a delimiter is not closed. -/
def describeClosing (delimiter : Delimiter) (list : Bool) : String :=
  (if list then "',' or " else "") ++ delimiter.closer.describe

def message : Problem → String
  | unexpectedToken expected found =>
    "unexpected token: expected " ++ expected.describe ++ ", found " ++ found.describe
  | unexpectedEnd expected => "unexpected end of input: expected " ++ expected.describe
  | missingOperand operator found =>
    "missing operand after " ++ operator.describe ++ ": expected an expression, found " ++
      describeFound found
  | unclosed delimiter list found _ =>
    "unclosed " ++ delimiter.describe ++ ": expected " ++ describeClosing delimiter list ++
      ", found " ++
      describeFound found
  | invalidPattern hint => "invalid pattern: " ++ hint
  | ambiguous hint => "ambiguous object literal or block: " ++ hint
  | tooDeep limit => "nesting exceeds the maximum depth of " ++ toString limit
  | lexical fault => fault.message

def label : Problem → String
  | unexpectedToken _ found => "found " ++ found.describe
  | unexpectedEnd _ => "input ends here"
  | missingOperand _ _ => "expected an operand here"
  | unclosed delimiter list _ _ => "expected " ++ describeClosing delimiter list
  | invalidPattern _ => "not a valid pattern"
  | ambiguous _ => "read as an object literal"
  | tooDeep _ => "nesting limit reached here"
  | lexical _ => "here"

def code : Problem → String
  | unexpectedToken _ _ => "onyx::parse::unexpected_token"
  | unexpectedEnd _ => "onyx::parse::unexpected_eof"
  | missingOperand _ _ => "onyx::parse::missing_operand"
  | unclosed _ _ _ _ => "onyx::parse::unclosed_delimiter"
  | invalidPattern _ => "onyx::parse::invalid_pattern"
  | ambiguous _ => "onyx::parse::ambiguous"
  | tooDeep _ => "onyx::parse::too_deep"
  | lexical _ => "onyx::lex"

/-- Advice on how to mend the problem. -/
def help? : Problem → Option String
  | unclosed delimiter _ _ _ =>
    some ("every opening " ++ delimiter.describe ++ " needs a matching close")
  | ambiguous _ =>
    some "a '\x7b' followed by `key:` starts an object literal; anything else starts a block"
  | tooDeep _ => some "move inner parts into `let` bindings"
  | _ => none

/-- A brace taken for an object by its first key, whose body goes on as no object does. -/
def noObject (found : Option Lexeme) : Problem :=
  ambiguous ("'\x7b' was read as an object literal, but " ++ describeFound found ++
    " follows a field where ',' or '\x7d' was expected")

def noPattern (found : Option Lexeme) : Problem :=
  invalidPattern ("expected a pattern, found " ++ describeFound found)

def noRangeEnd : Problem := invalidPattern "expected a literal after '..'"

end Problem

structure Diagnostic where
  problem : Problem
  span : Span
  deriving DecidableEq

namespace Diagnostic

def message (d : Diagnostic) : String := d.problem.message

def ofLexical (e : LexicalError) : Diagnostic := ⟨.lexical e.fault, e.span⟩

/-- A problem inside a bracketed pattern that starts at `opener`, told of the whole pattern; the
nesting limit and lexical faults stay where they are. -/
def widen (opener : Span) (d : Diagnostic) : Diagnostic :=
  match d.problem with
  | .tooDeep _ | .lexical _ => d
  | .invalidPattern hint => ⟨.invalidPattern hint, opener.merge d.span⟩
  | _ => ⟨.invalidPattern d.message, opener.merge d.span⟩

end Diagnostic

end ApiScript
