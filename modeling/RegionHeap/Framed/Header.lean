import RegionHeap.Memory

/-!
# Block headers

The address that a user gets lies one alignment above the base of the block, so
that there is room below it for two words: the requested size and the alignment
in force. Whoever has the address can therefore find the whole block again.
-/
namespace RegionHeap.Framed

structure Header where
  size : Nat
  align : Nat
deriving Repr, DecidableEq

namespace Header

/-- The number of bytes that the two words take. -/
def width : Nat := 16

/-- The alignment in force for a wish: at least the smallest one, and exactly
that if the wish is no power of two. -/
def alignFor (wish : Nat) : Nat :=
  if Word.isPowerOfTwo wish then max wish Word.minAlign else Word.minAlign

def read (m : Memory) (user : Nat) : Header :=
  ⟨m.readWord (user - width), m.readWord (user - 8)⟩

def write (header : Header) (user : Nat) (m : Memory) : Memory :=
  (m.writeWord (user - width) header.size).writeWord (user - 8) header.align

end Header

end RegionHeap.Framed
