import Std.Data.TreeMap
import RegionHeap.Heap

/-!
# Clients

A client uses a heap and remembers which blocks it holds and with which sizes.
It is the honest witness of correct use: resizing or releasing a block that is
not held is a fault, and so is reading or writing a byte that lies in no block.
A client never asks the heap what is live, only its own record.
-/
namespace RegionHeap

structure Client (σ : Type) where
  heap : σ
  /-- The sizes of the held blocks by their addresses. -/
  held : Std.TreeMap Nat Nat := ∅

namespace Client
variable {σ : Type} [Heap σ]

/-- The record after a request was answered. -/
def recordAfter (held : Std.TreeMap Nat Nat) (request : Request) (answer : Option Nat) :
    Std.TreeMap Nat Nat :=
  match request, answer with
  | .release (some block), _ => held.erase block
  | .resize (some old) size, some new => (held.erase old).insert new size
  | _, some new => held.insert new request.size
  | _, none => held

/-- Make a request about nothing or about a block that is held. -/
def serve (request : Request) (client : Client σ) :
    Checked (Reply (Option Nat) (Client σ)) := do
  Checked.require (∀ block ∈ request.subject?, client.held.contains block) .deadBlock
  let reply ← Heap.serve request client.heap
  return ⟨reply.answer,
    ⟨reply.state, recordAfter client.held request reply.answer⟩, reply.events⟩

/-- Whether a range of a block is all inside the block. No bytes are inside anything. -/
def covers (client : Client σ) (block offset len : Nat) : Bool :=
  len = 0 || match client.held[block]? with
    | some size => offset + len ≤ size
    | none => false

/-- The bytes of a range of a block. -/
def read (client : Client σ) (block offset len : Nat) : Checked (List UInt8) := do
  Checked.require (client.covers block offset len) .strayAccess
  return (Heap.memory client.heap).bytes (block + offset) len

/-- Change the memory of the heap. -/
def withMemory (client : Client σ) (memory : Memory) : Client σ :=
  { client with heap := Heap.withMemory memory client.heap }

/-- Give the bytes of a range of a block what `f` says of their addresses. -/
def update (client : Client σ) (block offset len : Nat) (f : Nat → UInt8) :
    Checked (Client σ) := do
  Checked.require (client.covers block offset len) .strayAccess
  return client.withMemory ((Heap.memory client.heap).update (block + offset) len f)

def fill (client : Client σ) (block offset len : Nat) (value : UInt8) : Checked (Client σ) :=
  client.update block offset len fun _ => value

/-- Copy the first bytes of one block to the start of another. -/
def copy (client : Client σ) (target source len : Nat) : Checked (Client σ) := do
  Checked.require (client.covers source 0 len) .strayAccess
  Checked.require (client.covers target 0 len) .strayAccess
  return client.withMemory ((Heap.memory client.heap).copy target source len)

end Client

end RegionHeap
