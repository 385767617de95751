import ApiScript.Numeral.Float

set_option autoImplicit false
set_option relaxedAutoImplicit false

/-!
Durations and sizes: a decimal magnitude and a unit written against it.
-/

namespace ApiScript

/-- A length of time: whole seconds and the nanoseconds above them. -/
structure Time where
  seconds : Nat
  nanoseconds : Nat
  deriving DecidableEq

def Time.nanosecondsPerSecond : Nat := 1000000000

/-- The length of so many nanoseconds, unless its seconds pass 64 bits. -/
def Time.ofNanoseconds? (n : Nat) : Option Time :=
  if n / nanosecondsPerSecond < 0x10000000000000000 then
    some ⟨n / nanosecondsPerSecond, n % nanosecondsPerSecond⟩
  else none

inductive DurationUnit
  | milliseconds | seconds | minutes | hours
  deriving DecidableEq

namespace DurationUnit

def suffix : DurationUnit → String
  | milliseconds => "ms"
  | seconds => "s"
  | minutes => "m"
  | hours => "h"

def ofSuffix? (text : String) : Option DurationUnit :=
  [milliseconds, seconds, minutes, hours].find? (·.suffix == text)

def inSeconds : DurationUnit → Binary64
  | milliseconds => .ofDecimal false 1 (-3)
  | seconds => .ofInt 1
  | minutes => .ofInt 60
  | hours => .ofInt 3600

/-- The time that `value` units take, to the nearest nanosecond; a negative value takes none. -/
def time? (unit : DurationUnit) (value : Binary64) : Option Time :=
  ((value.mul unit.inSeconds).count? Time.nanosecondsPerSecond).bind Time.ofNanoseconds?

end DurationUnit

inductive SizeUnit
  | kilobytes | megabytes | gigabytes | terabytes
  deriving DecidableEq

namespace SizeUnit

def suffix : SizeUnit → String
  | kilobytes => "kb"
  | megabytes => "mb"
  | gigabytes => "gb"
  | terabytes => "tb"

def ofSuffix? (text : String) : Option SizeUnit :=
  [kilobytes, megabytes, gigabytes, terabytes].find? (·.suffix == text)

def inBytes : SizeUnit → Nat
  | kilobytes => 1024
  | megabytes => 1024 * 1024
  | gigabytes => 1024 * 1024 * 1024
  | terabytes => 1024 * 1024 * 1024 * 1024

end SizeUnit

namespace Numeral

/-- Whether a magnitude may hold the character; its unit begins at the first other one. -/
def isMagnitude (c : Char) : Bool := c.isDigit || c == '.'

/-- The magnitude and the unit of a quantity, the unit as `ofSuffix?` knows it. -/
def quantity {Unit : Type} (kind : NumberClass) (ofSuffix? : String → Option Unit)
    (noSuffix : NumberFault) (raw : String) (span : Span) : Except LexicalError (Binary64 × Unit) :=
  match ofSuffix? (String.ofList (raw.toList.dropWhile isMagnitude)) with
  | none => .error ⟨.invalidNumber kind raw noSuffix, span⟩
  | some unit =>
    match float? (raw.toList.takeWhile isMagnitude) with
    | none => .error ⟨.invalidNumber kind raw .magnitude, span⟩
    | some value => .ok (value, unit)

def duration (raw : String) (span : Span) : Except LexicalError (Binary64 × DurationUnit) :=
  quantity .duration DurationUnit.ofSuffix? .durationSuffix raw span

def size (raw : String) (span : Span) : Except LexicalError (Binary64 × SizeUnit) :=
  quantity .size SizeUnit.ofSuffix? .sizeSuffix raw span

end Numeral

end ApiScript
