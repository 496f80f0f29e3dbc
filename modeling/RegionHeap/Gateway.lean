import RegionHeap.Growth.Provider
import RegionHeap.Heap

/-!
# The gateway

Programs do not choose a heap; they use the one that was bound when the library
was built. The gateway has one operation for each request and forwards it
unconditionally: it keeps no state, checks nothing and changes no answer. What
it says about growth comes from the provider of the environment, whichever heap
is bound. The exported operations, for programs in other languages, forward to
the gateway in the same way.
-/
namespace RegionHeap

/-- The heap that programs use. -/
structure Gateway (σ : Type) where
  bound : σ

namespace Gateway
variable {σ : Type} [Heap σ]

def forward (request : Request) (gateway : Gateway σ) :
    Checked (Reply (Option Nat) (Gateway σ)) := do
  let reply ← Heap.serve request gateway.bound
  return ⟨reply.answer, ⟨reply.state⟩, reply.events⟩

def allocate (size : Nat) (gateway : Gateway σ) := gateway.forward (.allocate size)

def allocateAligned (align size : Nat) (gateway : Gateway σ) :=
  gateway.forward (.allocateAligned align size)

def allocateZeroed (count size : Nat) (gateway : Gateway σ) :=
  gateway.forward (.allocateZeroed count size)

def allocateZeroedAligned (align count size : Nat) (gateway : Gateway σ) :=
  gateway.forward (.allocateZeroedAligned align count size)

def resize (block : Option Nat) (size : Nat) (gateway : Gateway σ) :=
  gateway.forward (.resize block size)

def release (block : Option Nat) (gateway : Gateway σ) := gateway.forward (.release block)

def serve : Request → Gateway σ → Checked (Reply (Option Nat) (Gateway σ))
  | .allocate size => allocate size
  | .allocateAligned align size => allocateAligned align size
  | .allocateZeroed count size => allocateZeroed count size
  | .allocateZeroedAligned align count size => allocateZeroedAligned align count size
  | .resize block size => resize block size
  | .release block => release block

def pageSize {ρ : Type} [Growth.Provider ρ] (provider : ρ) : Nat :=
  Growth.Provider.pageSize provider

/-- Tell an observer about growth from now on, if the environment can. -/
def setObserver {ρ : Type} [Growth.Provider ρ] (observer : Observer) (provider : ρ) : Bool × ρ :=
  Growth.Provider.setObserver observer provider

instance : Heap (Gateway σ) where
  serve := serve
  memory gateway := Heap.memory gateway.bound
  withMemory memory gateway := ⟨Heap.withMemory memory gateway.bound⟩

end Gateway

/-- The gateway behind its exported operations. -/
structure Exports (σ : Type) where
  gateway : Gateway σ

namespace Exports
variable {σ : Type} [Heap σ]

/-- Answer as the gateway did. -/
def relay (answered : Checked (Reply (Option Nat) (Gateway σ))) :
    Checked (Reply (Option Nat) (Exports σ)) := do
  let reply ← answered
  return ⟨reply.answer, ⟨reply.state⟩, reply.events⟩

def serve (request : Request) (exported : Exports σ) :
    Checked (Reply (Option Nat) (Exports σ)) :=
  match request with
  | .allocate size => relay (exported.gateway.allocate size)
  | .allocateAligned align size => relay (exported.gateway.allocateAligned align size)
  | .allocateZeroed count size => relay (exported.gateway.allocateZeroed count size)
  | .allocateZeroedAligned align count size =>
    relay (exported.gateway.allocateZeroedAligned align count size)
  | .resize block size => relay (exported.gateway.resize block size)
  | .release block => relay (exported.gateway.release block)

def pageSize {ρ : Type} [Growth.Provider ρ] (provider : ρ) : Nat := Gateway.pageSize provider

instance : Heap (Exports σ) where
  serve := serve
  memory exported := Heap.memory exported.gateway
  withMemory memory exported := ⟨Heap.withMemory memory exported.gateway⟩

end Exports

end RegionHeap
