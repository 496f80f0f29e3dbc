import RegionHeap.Framed.Header
import RegionHeap.Heap
import RegionHeap.Session
import RegionHeap.Sized.Allocator

/-!
# Calls to a framed heap

A framed heap serves requests that name blocks by address alone from a sized
allocator, which wants sizes and alignments back, by keeping a header below
every block. A call takes at most three steps, and only the middle
one holds the lock: first it checks its arguments and reads the header of the
block it is about, then it uses the allocator, and last it writes the header of
the block it has got. The steps are separate because calls of other threads can
come between them. A single call made alone is `Framed.serve`.
-/
namespace RegionHeap

open Sized (Allocator Dialogue)
open Growth (Provider)

/-- A sized allocator, the provider behind it, the memory, and a trace level. -/
structure Framed (α ρ : Type) where
  level : Trace.Level
  allocator : α
  provider : ρ
  memory : Memory

namespace Framed

/-- What a call does while it holds the lock. -/
inductive Critical where
  | acquire (cleared : Bool) (header : Header) (total : Nat)
  | resize (user : Nat) (old : Header) (size total : Nat)
  | release (user : Nat) (header : Header)
deriving Repr, DecidableEq

/-- How far a call has come. -/
inductive Call where
  | requested (request : Request)
  | entering (critical : Critical)
  | framing (user : Nat) (header : Header)
  | answered (result : Option Nat)
deriving Repr, DecidableEq

namespace Call

/-- A call for a new block: its total has to be a word. -/
def forBlock (cleared : Bool) (wish size : Nat) : Call :=
  let align := Header.alignFor wish
  match Word.add? size align with
  | some total => entering (.acquire cleared ⟨size, align⟩ total)
  | none => answered none

/-- A call for zeroed elements: their number of bytes has to be a word. -/
def forElements (wish count size : Nat) : Call :=
  match Word.mul? count size with
  | some bytes => forBlock true wish bytes
  | none => answered none

/-- Check the arguments of a request and read the header it needs. -/
def opened (m : Memory) : Request → Call
  | .allocate size => forBlock false Word.minAlign size
  | .allocateAligned align size => forBlock false align size
  | .allocateZeroed count size => forElements Word.minAlign count size
  | .allocateZeroedAligned align count size => forElements align count size
  | .resize none size => forBlock false Word.minAlign size
  | .resize (some user) size =>
    let old := Header.read m user
    match Word.add? size old.align with
    | some total => entering (.resize user old size total)
    | none => answered none
  | .release none => answered none
  | .release (some user) => entering (.release user (Header.read m user))

def result : Call → Option Nat
  | answered result => result
  | _ => none

end Call

variable {α ρ : Type} [Allocator α] [Provider ρ]

/-- The block of a header, as the allocator knows it. -/
def blockOf (user : Nat) (header : Header) : Checked Sized.Block := do
  let base ← Word.sub user header.align
  let total ← Word.add header.size header.align
  return ⟨base, total, header.align⟩

/-- Use the allocator and go on with the block it has given. -/
def place (header : Header) (dialogue : Dialogue (Outcome α)) (heap : Framed α ρ) :
    Checked (Reply Call (Framed α ρ)) := do
  let reply ← dialogue.run heap.level heap.provider
  let call := match reply.answer.base with
    | some base => .framing (base + header.align) header
    | none => .answered none
  return ⟨call, { heap with
    allocator := reply.answer.state
    memory := reply.answer.memory
    provider := reply.state }, reply.events⟩

/-- The step of a call that holds the lock. -/
def enter (critical : Critical) (heap : Framed α ρ) : Checked (Reply Call (Framed α ρ)) :=
  match critical with
  | .acquire cleared header total =>
    heap.place header (Allocator.acquire cleared total header.align heap.allocator heap.memory)
  | .resize user old size total => do
    let block ← blockOf user old
    heap.place ⟨size, old.align⟩ (← Allocator.resize block total heap.allocator heap.memory)
  | .release user header => do
    let block ← blockOf user header
    let (allocator, memory) ← Allocator.release block heap.allocator heap.memory
    return ⟨.answered none, { heap with allocator := allocator, memory := memory }, []⟩

def step (call : Call) (heap : Framed α ρ) : Checked (Reply Call (Framed α ρ)) :=
  match call with
  | .requested request => return ⟨.opened heap.memory request, heap, []⟩
  | .entering critical => heap.enter critical
  | .framing user header =>
    return ⟨.answered (some user), { heap with memory := header.write user heap.memory }, []⟩
  | .answered result => return ⟨.answered result, heap, []⟩

/-- Serve a request with nobody in between. -/
def serve (request : Request) (heap : Framed α ρ) :
    Checked (Reply (Option Nat) (Framed α ρ)) := do
  let opened ← heap.step (.requested request)
  let placed ← opened.state.step opened.answer
  let framed ← placed.state.step placed.answer
  return ⟨framed.answer.result, framed.state, opened.events ++ placed.events ++ framed.events⟩

/-- A heap that has obtained nothing yet. -/
def initial (level : Trace.Level) (provider : ρ) : Framed α ρ :=
  ⟨level, Allocator.empty, provider, .empty⟩

/-- The same, with the trace level of a session that is started if it was not. -/
def ofSession (session : Session) (provider : ρ) : Framed α ρ :=
  initial session.ensureReady.level provider

instance : Heap (Framed α ρ) where
  serve := serve
  memory := memory
  withMemory memory heap := { heap with memory := memory }

end Framed

end RegionHeap
