import ApiScript.Span
import ApiScript.Lexeme.Basic

set_option autoImplicit false
set_option relaxedAutoImplicit false

/-!
Lexical faults: why a text is no lexeme, or why a lexeme has no value.
-/

namespace ApiScript

inductive EscapeRule
  | letter | twoHexDigits | bracedHexDigits | fourHexDigits | scalarValue | knownLetter
  deriving DecidableEq

namespace EscapeRule

def describe : EscapeRule → String
  | letter => "an escape character after '\\'"
  | twoHexDigits => "two hex digits after '\\x'"
  | bracedHexDigits => "one to six hex digits in '\\u\x7b...\x7d'"
  | fourHexDigits => "four hex digits after '\\u'"
  | scalarValue => "a Unicode scalar value"
  | knownLetter => "one of \\\\ \\' \\\" \\n \\r \\t \\b \\f \\v \\0 \\x \\u"

end EscapeRule

inductive NumberFault
  | outOfRange | emptyFloat | malformedFloat | durationSuffix | sizeSuffix | magnitude
  deriving DecidableEq

namespace NumberFault

def describe : NumberFault → String
  | outOfRange => "out of range for a 64-bit integer"
  | emptyFloat => "cannot parse float from empty string"
  | malformedFloat => "invalid float literal"
  | durationSuffix => "expected one of the suffixes ms, s, m, h"
  | sizeSuffix => "expected one of the suffixes kb, mb, gb, tb"
  | magnitude => "expected a decimal magnitude"

end NumberFault

def NumberClass.describe : NumberClass → String
  | .integer => "integer"
  | .float => "float"
  | .duration => "duration"
  | .size => "size"

inductive LexicalFault
  | unexpectedCharacter (found : Char)
  | unterminatedString (quote : Char)
  | unterminatedComment
  | invalidEscape (sequence : String) (rule : EscapeRule)
  | invalidNumber (kind : NumberClass) (text : String) (reason : NumberFault)
  deriving DecidableEq

namespace LexicalFault

def message : LexicalFault → String
  | unexpectedCharacter found => "unexpected character '" ++ found.toString ++ "'"
  | unterminatedString quote => "unterminated string literal, expected a closing " ++ quote.toString
  | unterminatedComment => "unterminated block comment, expected a closing '*/'"
  | invalidEscape sequence rule =>
    "invalid escape sequence '" ++ sequence ++ "', expected " ++ rule.describe
  | invalidNumber kind text reason =>
    "invalid " ++ kind.describe ++ " literal '" ++ text ++ "': " ++ reason.describe

/-- Whether the fault swallows the rest of the text, so that no later token can be trusted. -/
def isFatal : LexicalFault → Bool
  | unterminatedString _ | unterminatedComment => true
  | _ => false

end LexicalFault

structure LexicalError where
  fault : LexicalFault
  span : Span
  deriving DecidableEq

namespace LexicalError

def message (e : LexicalError) : String := e.fault.message

def isFatal (e : LexicalError) : Bool := e.fault.isFatal

end LexicalError

end ApiScript
