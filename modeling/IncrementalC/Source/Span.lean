/-!
# Source positions

A `Span` is a range of bytes in one source buffer, with the line and column of its start inside
the fragment that the text came from. Nodes that no text stands behind carry `Span.none`.
-/
namespace IncrementalC
set_option autoImplicit false

/-- A range of bytes in a source buffer. -/
structure Span where
  /-- The number of the buffer. -/
  file : Nat
  start : Nat
  /-- The offset just past the last byte. -/
  stop : Nat
  /-- The line of the start, from one. -/
  line : Nat
  /-- The column of the start, from one. -/
  col : Nat
deriving DecidableEq, Repr, Inhabited

namespace Span

/-- No buffer has this number. -/
def noFile : Nat := 0xFFFFFFFF

/-- The span of a node that no source text stands behind. -/
def none : Span := ⟨noFile, 0, 0, 0, 0⟩

def isNone (s : Span) : Bool := s.file == noFile

/-- The least span that covers both, if they lie in one buffer; otherwise the first. -/
def merge (s t : Span) : Span :=
  if s.isNone then t
  else if t.isNone || t.file != s.file then s
  else
    { file := s.file
      start := min s.start t.start
      stop := max s.stop t.stop
      line := min s.line t.line
      col := if s.start ≤ t.start then s.col else t.col }

def contains (s t : Span) : Bool :=
  s.file == t.file && s.start ≤ t.start && t.stop ≤ s.stop

end Span

end IncrementalC
