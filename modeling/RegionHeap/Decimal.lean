import RegionHeap.Word

/-!
# Decimal words

Numbers are written without allocating: digits go from the last one to the
first into the tail of a buffer of twenty bytes, which is exactly wide enough
for the largest word. Reading goes the other way and saturates, so that a
number of any length is recognised as a number. What the buffer held before is
an argument, because the text must not depend on it.
-/
namespace RegionHeap.Decimal

/-- The number of digits of the largest word. -/
def width : Nat := 20

/-- The character `0`. -/
def zero : UInt8 := 48

def isDigit (byte : UInt8) : Bool := zero ≤ byte && byte ≤ zero + 9

/-- The sum of two bytes. -/
def addBytes (a b : UInt8) : Checked UInt8 :=
  if a.toNat + b.toNat < 256 then .ok (a + b) else .error .overflow

/-- The last digit of a number. -/
def lastDigit (value : Nat) : Checked UInt8 := addBytes zero (value % 10).toUInt8

/-- Write the digits of `value` below position `pos`, the last one first.
Answer where the first digit stands. -/
def write : Nat → Nat → Vector UInt8 width → Checked (Nat × Vector UInt8 width)
  | 0, _, _ => .error .underflow
  | pos + 1, value, buffer =>
    if h : pos < width then do
      let digit ← lastDigit value
      let buffer := buffer.set pos digit h
      if value / 10 = 0 then return (pos, buffer) else write pos (value / 10) buffer
    else
      .error .outOfBounds

/-- The digits of `value`, written into the tail of `buffer`. -/
def render (value : Nat) (buffer : Vector UInt8 width) : Checked (List UInt8) := do
  let (first, buffer) ← write width value buffer
  return buffer.toList.drop first

/-- Read the remaining digits after those that made `read`. -/
def readFrom : Nat → List UInt8 → Option Nat
  | read, [] => some read
  | read, byte :: rest =>
    if isDigit byte then
      readFrom (Word.addSat (Word.mulSat read 10) (byte - zero).toNat) rest
    else
      none

/-- The number that a text of digits writes, at most the largest word. A text
that is empty or holds anything but digits is no number. -/
def read? (text : List UInt8) : Option Nat :=
  if text.isEmpty then none else readFrom 0 text

end RegionHeap.Decimal
