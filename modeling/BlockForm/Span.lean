/-!
# BlockForm.Span — places and stretches of source text

A location has two coordinates: the line and column a reader sees, and the byte offset that
diagnostic labels use.  Order, containment and merging go by line and column only.
-/

namespace BlockForm

/-- A place in source text. -/
structure Location where
  line : Nat
  column : Nat
  offset : Nat
  deriving DecidableEq, Inhabited

namespace Location

/-- The location at a line and column, with offset zero. -/
def lineColumn (line column : Nat) : Location := ⟨line, column, 0⟩

/-- `a` stands no later than `b`: line first, then column. -/
def le (a b : Location) : Bool :=
  a.line < b.line || (a.line == b.line && a.column ≤ b.column)

end Location

/-- A stretch of source text between two locations, both included. -/
structure Span where
  start : Location
  stop : Location
  deriving DecidableEq, Inhabited

namespace Span

/-- The span given by byte offsets alone. -/
def ofRange (start stop : Nat) : Span := ⟨⟨0, 0, start⟩, ⟨0, 0, stop⟩⟩

/-- The span of a single line between two columns. -/
def onLine (line startColumn stopColumn : Nat) : Span :=
  ⟨.lineColumn line startColumn, .lineColumn line stopColumn⟩

/-- The location lies within the span. -/
def contains (s : Span) (l : Location) : Bool := s.start.le l && l.le s.stop

/-- The span from the earlier start to the later stop; on a tie the first span's end is kept. -/
def merge (a b : Span) : Span where
  start := if a.start.le b.start then a.start else b.start
  stop := if b.stop.le a.stop then a.stop else b.stop

/-- Number of bytes between the offsets, zero when they are reversed. -/
def byteLength (s : Span) : Nat := s.stop.offset - s.start.offset

end Span

end BlockForm
