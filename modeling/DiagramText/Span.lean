/-!
# Spans

A span is a half-open range of byte offsets into a document.
-/

set_option autoImplicit false

namespace DiagramText

structure Span where
  start : Nat := 0
  stop : Nat := 0
  deriving DecidableEq, Repr

namespace Span

def empty (offset : Nat) : Span := ⟨offset, offset⟩

def size (s : Span) : Nat := s.stop - s.start

def isEmpty (s : Span) : Bool := s.start == s.stop

def union (s t : Span) : Span := ⟨min s.start t.start, max s.stop t.stop⟩

def contains (s : Span) (offset : Nat) : Bool := s.start ≤ offset && offset < s.stop

/-- `start..stop`, as listings and messages show it. -/
def display (s : Span) : String := s.start.repr ++ ".." ++ s.stop.repr

end Span

end DiagramText
