set_option autoImplicit false
set_option relaxedAutoImplicit false

/-!
Spans: the byte ranges of a source text that tokens, tree nodes and diagnostics refer to.
-/

namespace ApiScript

/-- The bytes from `start` up to `stop`, the latter not included. -/
structure Span where
  start : Nat
  stop : Nat
  deriving DecidableEq

namespace Span

def point (offset : Nat) : Span := ⟨offset, offset⟩

def merge (a b : Span) : Span := ⟨min a.start b.start, max a.stop b.stop⟩

def length (s : Span) : Nat := s.stop - s.start

def isEmpty (s : Span) : Bool := s.length == 0

/-- Whether `b` begins where `a` ends, with nothing in between. -/
def touches (a b : Span) : Bool := a.stop == b.start

def shift (offset : Nat) (s : Span) : Span := ⟨s.start + offset, s.stop + offset⟩

end Span

end ApiScript
