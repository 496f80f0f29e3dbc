import RegionHeap.Decimal

/-!
# Trace lines

A trace line is packed into a fixed buffer of ninety-six bytes and then
written at once. The parts follow each other; what does not fit is cut off.
Every slice and every copy is checked, although the running end is clamped to
the buffer before it is used.
-/
namespace RegionHeap.Trace

/-- The bytes of a text of ASCII characters. -/
def bytesOf (text : String) : List UInt8 :=
  text.toList.map fun c => c.val.toUInt8

/-- A line under construction: a buffer and the number of bytes in use. -/
structure Line where
  buffer : Vector UInt8 96
  used : Nat

namespace Line

/-- The number of bytes that a line can hold. -/
def capacity : Nat := 96

def blank : Line := ⟨Vector.replicate 96 0, 0⟩

/-- Overwrite the buffer from `start` on with `source`. -/
def overwrite (buffer : Vector UInt8 96) (start : Nat) (source : List UInt8) :
    Vector UInt8 96 :=
  Vector.ofFn fun i =>
    if start ≤ i then (source[i.val - start]?).getD buffer[i] else buffer[i]

/-- Add as much of `part` as the buffer has room for. -/
def append (line : Line) (part : List UInt8) : Checked Line := do
  let stop := min (← Word.add line.used part.length) capacity
  Checked.require (line.used ≤ stop ∧ stop ≤ capacity) .outOfBounds
  let room ← Word.sub stop line.used
  Checked.require (room ≤ part.length) .outOfBounds
  let source := part.take room
  Checked.require (source.length = stop - line.used) .assertion
  return ⟨overwrite line.buffer line.used source, stop⟩

/-- The bytes in use. -/
def text (line : Line) : Checked (List UInt8) := do
  Checked.require (line.used ≤ capacity) .outOfBounds
  return line.buffer.toList.take line.used

/-- The line that reports `value` between two texts. -/
def pack (before : List UInt8) (value : Nat) (after : List UInt8) :
    Checked (List UInt8) := do
  let digits ← Decimal.render value (Vector.replicate Decimal.width 0)
  let line ← [before, digits, after].foldlM append blank
  line.text

end RegionHeap.Trace.Line
