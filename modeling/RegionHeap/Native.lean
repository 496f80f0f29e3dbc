import RegionHeap.Heap
import RegionHeap.Host.Allocator

/-!
# The native heap

The six requests served by the host's allocator. Two of them need care. There
is no host request for zeroed elements with an alignment, so the product is
checked here and the block cleared afterwards. And a live block is never given
the size zero, because the host would free it and answer nothing, which reads
as a refusal that left the block alone; it keeps one byte instead.
-/
namespace RegionHeap

structure Native (η : Type) where
  host : η
  memory : Memory

namespace Native
variable {η : Type} [HostAllocator η]

/-- The answer of the host as the answer of this heap. -/
def adopt (outcome : Outcome η) : Reply (Option Nat) (Native η) :=
  ⟨outcome.base, ⟨outcome.state, outcome.memory⟩, []⟩

/-- An aligned block; the host accepts no alignment below the size of an address. -/
def allocateAligned (align size : Nat) (heap : Native η) : Outcome η :=
  HostAllocator.acquireAligned (max align HostAllocator.addressSize) size heap.host heap.memory

/-- Zeroed elements with an alignment. -/
def allocateZeroedAligned (align count size : Nat) (heap : Native η) : Outcome η :=
  match Word.mul? count size with
  | none => ⟨none, heap.host, heap.memory⟩
  | some bytes =>
    let outcome := heap.allocateAligned align bytes
    match outcome.base with
    | none => outcome
    | some base => { outcome with memory := outcome.memory.fill base bytes 0 }

/-- The size to ask the host for: only a block that is new may have none. -/
def resizedTo (block : Option Nat) (size : Nat) : Nat :=
  if block.isNone then size else max size 1

def serve (request : Request) (heap : Native η) : Checked (Reply (Option Nat) (Native η)) :=
  match request with
  | .allocate size => return adopt (HostAllocator.acquire size heap.host heap.memory)
  | .allocateAligned align size => return adopt (heap.allocateAligned align size)
  | .allocateZeroed count size =>
    return adopt (HostAllocator.acquireZeroed count size heap.host heap.memory)
  | .allocateZeroedAligned align count size =>
    return adopt (heap.allocateZeroedAligned align count size)
  | .resize block size => do
    return adopt (← HostAllocator.resize block (resizedTo block size) heap.host heap.memory)
  | .release block => do
    let (host, memory) ← HostAllocator.release block heap.host heap.memory
    return ⟨none, ⟨host, memory⟩, []⟩

/-- A native heap without any block. -/
def initial : Native η := ⟨HostAllocator.empty, .empty⟩

instance : Heap (Native η) where
  serve := serve
  memory := memory
  withMemory memory heap := { heap with memory := memory }

end Native

end RegionHeap
