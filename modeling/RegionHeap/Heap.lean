import RegionHeap.Event
import RegionHeap.Memory

/-!
# Heaps

A heap serves six requests. Four of them obtain a block: of a size, of a size
and an alignment, of a number of zeroed elements, and of zeroed elements with
an alignment. The other two give a block another size and give it back. The
answer is the address of a block or nothing; a request to give back is always
answered with nothing, and nothing can be resized or given back too.
-/
namespace RegionHeap

inductive Request where
  | allocate (size : Nat)
  | allocateAligned (align size : Nat)
  | allocateZeroed (count size : Nat)
  | allocateZeroedAligned (align count size : Nat)
  | resize (block : Option Nat) (size : Nat)
  | release (block : Option Nat)
deriving Repr, DecidableEq

namespace Request

/-- The number of bytes a block has after the request was met. -/
def size : Request → Nat
  | allocate size => size
  | allocateAligned _ size => size
  | allocateZeroed count size => count * size
  | allocateZeroedAligned _ count size => count * size
  | resize _ size => size
  | release _ => 0

/-- The block that the request is about, if there is one already. -/
def subject? : Request → Option Nat
  | resize block _ => block
  | release block => block
  | _ => none

end Request

class Heap (σ : Type) where
  serve : Request → σ → Checked (Reply (Option Nat) σ)
  memory : σ → Memory
  withMemory : Memory → σ → σ

end RegionHeap
