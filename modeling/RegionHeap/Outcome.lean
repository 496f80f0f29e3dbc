import RegionHeap.Memory

/-!
# Outcomes

What an allocator answers when it is asked for a block: where the block is, if
there is one, and how the allocator and the memory are afterwards. An answer
without a block is ordinary; it says that the request could not be met.
-/
namespace RegionHeap

structure Outcome (σ : Type) where
  base : Option Nat
  state : σ
  memory : Memory

end RegionHeap
