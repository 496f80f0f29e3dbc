import RegionHeap.Client

/-!
# Workloads

Several threads use one heap, their requests taking turns. In each round every
thread fills a number of places with blocks, each block with a byte of the
thread, doubles their sizes, and then looks at what is left of the first
contents before it gives the blocks back.
-/
namespace RegionHeap.Bench

structure Workload where
  threads : Nat
  rounds : Nat
  /-- The number of places of each thread. -/
  places : Nat
  sizes : List Nat
deriving Repr, DecidableEq

namespace Workload

/-- One thing that a thread does with one of its places. -/
inductive Task where
  /-- Obtain a block, fill it and double it. -/
  | prepare (thread place size : Nat)
  /-- Look at a block and give it back. -/
  | finish (thread place : Nat)
deriving Repr, DecidableEq

/-- The size of a block: threads and rounds start at different sizes. -/
def sizeFor (work : Workload) (thread round place : Nat) : Nat :=
  work.sizes.getD ((place + thread + round) % work.sizes.length) 0

/-- A task for every place of every thread, the threads taking turns. -/
def forAll (work : Workload) (task : Nat → Nat → Task) : List Task :=
  (List.range work.places).flatMap fun place =>
    (List.range work.threads).map fun thread => task thread place

/-- Everything that is done, in order. -/
def tasks (work : Workload) : List Task :=
  (List.range work.rounds).flatMap fun round =>
    work.forAll (fun thread place => .prepare thread place (work.sizeFor thread round place)) ++
      work.forAll .finish

/-- What the threads have found. -/
structure Tally where
  blocks : Nat := 0
  refused : Nat := 0
  corrupt : Nat := 0
deriving Repr, DecidableEq

/-- A block in a place, with the number of its bytes that were filled. -/
structure Holding where
  block : Nat
  filled : Nat
deriving Repr, DecidableEq

/-- A heap in use, with what is in the places of each thread. -/
structure State (σ : Type) where
  client : Client σ
  held : Std.TreeMap Nat (Std.TreeMap Nat Holding) := ∅
  tally : Tally := {}

/-- Put a block into a place of a thread. -/
def State.put {σ : Type} (state : State σ) (thread place : Nat) (holding : Holding) :
    Std.TreeMap Nat (Std.TreeMap Nat Holding) :=
  state.held.insert thread ((state.held.getD thread ∅).insert place holding)

variable {σ : Type} [Heap σ]

/-- The byte of a thread. -/
def byteOf (thread : Nat) : UInt8 := (thread + 1).toUInt8

def prepare (state : State σ) (thread place size : Nat) : Checked (State σ) := do
  let obtained ← state.client.serve (.allocate size)
  match obtained.answer with
  | none =>
    return { state with
      client := obtained.state
      tally := { state.tally with refused := state.tally.refused + 1 } }
  | some block =>
    let filled ← obtained.state.fill block 0 size (byteOf thread)
    let resized ← filled.serve (.resize (some block) (2 * size))
    return {
      client := resized.state
      held := state.put thread place ⟨resized.answer.getD block, size⟩
      tally := { state.tally with blocks := state.tally.blocks + 1 } }

def finish (state : State σ) (thread place : Nat) : Checked (State σ) := do
  match (state.held.getD thread ∅)[place]? with
  | none => return state
  | some ⟨block, size⟩ =>
    let bytes ← state.client.read block 0 size
    let damaged := !bytes.all (· == byteOf thread)
    let released ← state.client.serve (.release (some block))
    return {
      client := released.state
      held := state.held.insert thread ((state.held.getD thread ∅).erase place)
      tally := { state.tally with
        corrupt := state.tally.corrupt + if damaged then 1 else 0 } }

def step (state : State σ) : Task → Checked (State σ)
  | .prepare thread place size => prepare state thread place size
  | .finish thread place => finish state thread place

/-- Let the threads do everything on a heap. -/
def run (work : Workload) (heap : σ) : Checked Tally := do
  let state ← work.tasks.foldlM step { client := { heap := heap } }
  return state.tally

end Workload

end RegionHeap.Bench
