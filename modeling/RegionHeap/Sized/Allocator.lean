import RegionHeap.Outcome
import RegionHeap.Sized.Dialogue

/-!
# Sized allocators

A sized allocator hands out blocks of an exact size and alignment and wants
both back, together with the base, when a block is resized or released. It
keeps its own record of live blocks; a description that does not match that
record exactly is a fault. Memory is passed through, because an allocator may
clear or move bytes.
-/
namespace RegionHeap.Sized

/-- A block as a sized allocator knows it: `total` bytes from `base` on. -/
structure Block where
  base : Nat
  total : Nat
  align : Nat
deriving Repr, DecidableEq

class Allocator (σ : Type) where
  /-- An allocator that has been given nothing yet. -/
  empty : σ
  /-- A new block, with all its bytes zero if it is to be cleared. -/
  acquire : (cleared : Bool) → (total align : Nat) → σ → Memory → Dialogue (Outcome σ)
  /-- The block with another size, in place or elsewhere. -/
  resize : Block → (total : Nat) → σ → Memory → Checked (Dialogue (Outcome σ))
  release : Block → σ → Memory → Checked (σ × Memory)
  /-- The blocks that were handed out and not taken back. -/
  Live : σ → Block → Prop

end RegionHeap.Sized
