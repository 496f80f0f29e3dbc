import RegionHeap.Outcome
import RegionHeap.Word

/-!
# Host allocators

The allocator that a hosted process already has. It finds blocks by their
address alone. Three of its habits have to be known to whoever builds on it: it
clears elements only if their number of bytes is a word, it refuses alignments
that are no power of two or no multiple of an address's size, and giving a live
block the size zero frees it and answers nothing.
-/
namespace RegionHeap

class HostAllocator (η : Type) where
  empty : η
  acquire : (size : Nat) → η → Memory → Outcome η
  acquireAligned : (align size : Nat) → η → Memory → Outcome η
  acquireZeroed : (count size : Nat) → η → Memory → Outcome η
  resize : (block : Option Nat) → (size : Nat) → η → Memory → Checked (Outcome η)
  release : (block : Option Nat) → η → Memory → Checked (η × Memory)
  /-- The live blocks with the sizes they were last given. -/
  Live : η → (base size : Nat) → Prop

/-- The size of an address in bytes. -/
def HostAllocator.addressSize : Nat := 8

end RegionHeap
