set_option autoImplicit false
set_option relaxedAutoImplicit false

/-!
Lexemes: what a token says, apart from where it stands. Keywords and symbols have one spelling;
the other lexemes carry theirs.
-/

namespace ApiScript

inductive Keyword
  | op | profile | fn | let_ | use | if_ | else_ | match_ | run | with_ | zip | path | emit
    | env | in_
  | true_ | false_ | null
  deriving DecidableEq

namespace Keyword

def all : List Keyword :=
  [op, profile, fn, let_, use, if_, else_, match_, run, with_, zip, path, emit, env, in_, true_,
    false_, null]

def spelling : Keyword → String
  | op => "op"
  | profile => "profile"
  | fn => "fn"
  | let_ => "let"
  | use => "use"
  | if_ => "if"
  | else_ => "else"
  | match_ => "match"
  | run => "run"
  | with_ => "with"
  | zip => "zip"
  | path => "path"
  | emit => "emit"
  | env => "env"
  | in_ => "in"
  | true_ => "true"
  | false_ => "false"
  | null => "null"

def ofSpelling? (word : String) : Option Keyword := all.find? (·.spelling == word)

def opensDeclaration : Keyword → Bool
  | op | profile | fn | let_ | use => true
  | _ => false

end Keyword

inductive Symbol
  | pipe | or | bar | and | equal | notEqual | not | less | lessEqual | greater
    | greaterEqual | like
  | plus | minus | star | slash | percent | assign | fatArrow | arrow | range | rangeInclusive
    | scope | dot
  | leftParen | rightParen | leftBracket | rightBracket | leftBrace | rightBrace | comma | colon
  deriving DecidableEq

namespace Symbol

def spelling : Symbol → String
  | pipe => "|>"
  | or => "||"
  | bar => "|"
  | and => "&&"
  | equal => "=="
  | notEqual => "!="
  | not => "!"
  | less => "<"
  | lessEqual => "<="
  | greater => ">"
  | greaterEqual => ">="
  | like => "~="
  | plus => "+"
  | minus => "-"
  | star => "*"
  | slash => "/"
  | percent => "%"
  | assign => "="
  | fatArrow => "=>"
  | arrow => "->"
  | range => ".."
  | rangeInclusive => "..="
  | scope => "::"
  | dot => "."
  | leftParen => "("
  | rightParen => ")"
  | leftBracket => "["
  | rightBracket => "]"
  | leftBrace => "\x7b"
  | rightBrace => "\x7d"
  | comma => ","
  | colon => ":"

/-- All symbols, a longer spelling before any that begins it. -/
def byLength : List Symbol :=
  [rangeInclusive, pipe, or, and, equal, notEqual, lessEqual, greaterEqual, like, fatArrow, arrow,
    range, scope, bar, not, less, greater, plus, minus, star, slash, percent, assign, dot,
    leftParen, rightParen, leftBracket, rightBracket, leftBrace, rightBrace, comma, colon]

end Symbol

inductive NumberClass
  | integer | float | duration | size
  deriving DecidableEq

/-- `interpolated` in double quotes, `simple` in single quotes, `bytes` in double quotes behind a
`b`. -/
inductive StringClass
  | interpolated | simple | bytes
  deriving DecidableEq

/-- The quotes of a string whose value is text. -/
inductive Quote
  | double | single
  deriving DecidableEq

namespace Quote

def char : Quote → Char
  | double => '"'
  | single => '\''

def stringClass : Quote → StringClass
  | double => .interpolated
  | single => .simple

end Quote

inductive CommentClass
  | line | block
  deriving DecidableEq

/-- A text is carried as written: quotes, escapes and comment marks included. -/
inductive Lexeme
  | keyword (keyword : Keyword)
  | symbol (symbol : Symbol)
  | number (kind : NumberClass) (text : String)
  | string (kind : StringClass) (text : String)
  | identifier (text : String)
  | comment (kind : CommentClass) (text : String)
  | invalid
  deriving DecidableEq

namespace Lexeme

/-- The text a lexeme is written as; a rejected text has none. -/
def spelling : Lexeme → String
  | keyword k => k.spelling
  | symbol s => s.spelling
  | number _ text | string _ text | identifier text | comment _ text => text
  | invalid => ""

def describe : Lexeme → String
  | keyword k => "'" ++ k.spelling ++ "'"
  | symbol s => "'" ++ s.spelling ++ "'"
  | number .integer text => "integer `" ++ text ++ "`"
  | number .float text => "float `" ++ text ++ "`"
  | number .duration text => "duration `" ++ text ++ "`"
  | number .size text => "size `" ++ text ++ "`"
  | string .bytes _ => "byte string literal"
  | string _ _ => "string literal"
  | identifier text => "identifier `" ++ text ++ "`"
  | comment .line _ => "comment"
  | comment .block _ => "block comment"
  | invalid => "invalid token"

def isKeyword : Lexeme → Bool
  | keyword _ => true
  | _ => false

def opensDeclaration : Lexeme → Bool
  | keyword k => k.opensDeclaration
  | _ => false

def isLiteral : Lexeme → Bool
  | number _ _ | string _ _ | keyword .true_ | keyword .false_ | keyword .null => true
  | _ => false

/-- Whether a minus sign written against the number belongs to it. -/
def isSignable : Lexeme → Bool
  | number .integer _ | number .float _ => true
  | _ => false

def isComment : Lexeme → Bool
  | comment _ _ => true
  | _ => false

/-- Whether the lexeme means nothing to the grammar. -/
def isTrivia (l : Lexeme) : Bool := l.isComment

end Lexeme

end ApiScript
