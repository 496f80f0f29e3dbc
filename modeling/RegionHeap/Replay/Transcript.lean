import RegionHeap.Client

/-!
# Transcripts

A recording heap passes every request on and writes it down. Blocks go by
numbers in the order in which they were handed out, since addresses mean
nothing to a reader, and a block that is resized or given back is shown with
all its bytes as runs of equal ones. Bytes that a heap leaves open get a fixed
value, so that a transcript depends on what was asked and written only.
-/
namespace RegionHeap

/-- Equal bytes in a row. -/
structure ByteRun where
  value : UInt8
  length : Nat
deriving Repr, DecidableEq

namespace ByteRun

/-- One more byte in front of some runs. -/
def cons (byte : UInt8) : List ByteRun → List ByteRun
  | [] => [⟨byte, 1⟩]
  | run :: rest =>
    if run.value = byte then ⟨byte, run.length + 1⟩ :: rest else ⟨byte, 1⟩ :: run :: rest

/-- The runs that make up some bytes. -/
def ofBytes (bytes : List UInt8) : List ByteRun := bytes.foldr cons []

end ByteRun

/-- A block by its number, with its content. -/
structure BlockSnapshot where
  number : Nat
  content : List ByteRun
deriving Repr, DecidableEq

namespace Transcript

inductive Entry where
  /-- A request for a new block and the number of the block. -/
  | obtained (request : Request) (number : Option Nat)
  | resized (old : Option BlockSnapshot) (size : Nat) (number : Option Nat)
  | released (block : BlockSnapshot)
  /-- Nothing was given back, this many times in a row. -/
  | releasedNothing (times : Nat)
deriving Repr, DecidableEq

/-- Add an entry; the newest is first. -/
def add (entry : Entry) : List Entry → List Entry
  | .releasedNothing times :: rest =>
    match entry with
    | .releasedNothing more => .releasedNothing (times + more) :: rest
    | _ => entry :: .releasedNothing times :: rest
  | entries => entry :: entries

/-- The value of bytes that a heap leaves open. -/
def openByte : UInt8 := 0xCC

end Transcript

/-- A heap with a transcript of its requests, the newest first. -/
structure Recording (σ : Type) where
  client : Client σ
  numbers : Std.TreeMap Nat Nat := ∅
  next : Nat := 1
  newest : List Transcript.Entry := []

namespace Recording
variable {σ : Type} [Heap σ]

/-- A held block as it is now. -/
def snapshot (recording : Recording σ) (block : Nat) : Checked BlockSnapshot := do
  let size := recording.client.held.getD block 0
  let bytes ← recording.client.read block 0 size
  return ⟨recording.numbers.getD block 0, ByteRun.ofBytes bytes⟩

/-- The range of a block of `size` bytes that its request leaves open, as offset
and length. -/
def openRange (client : Client σ) : Request → Nat × Nat
  | .allocate size => (0, size)
  | .allocateAligned _ size => (0, size)
  | .allocateZeroed .. => (0, 0)
  | .allocateZeroedAligned .. => (0, 0)
  | .resize none size => (0, size)
  | .resize (some block) size =>
    let old := client.held.getD block 0
    (old, size - old)
  | .release _ => (0, 0)

/-- The entry for a request, given the snapshot of its block and the new number. -/
def entryFor (request : Request) (old : Option BlockSnapshot) (number : Option Nat) :
    Transcript.Entry :=
  match request with
  | .resize _ size => .resized old size number
  | .release _ =>
    match old with
    | some snapshot => .released snapshot
    | none => .releasedNothing 1
  | request => .obtained request number

def serve (request : Request) (recording : Recording σ) :
    Checked (Reply (Option Nat) (Recording σ)) := do
  let old ← request.subject?.mapM recording.snapshot
  let (offset, len) := openRange recording.client request
  let reply ← recording.client.serve request
  match reply.answer with
  | none =>
    let entry := entryFor request old none
    return ⟨none, { recording with
      client := reply.state
      newest := Transcript.add entry recording.newest }, reply.events⟩
  | some block =>
    let client ← reply.state.fill block offset len Transcript.openByte
    let entry := entryFor request old (some recording.next)
    return ⟨some block, {
      client := client
      numbers := recording.numbers.insert block recording.next
      next := recording.next + 1
      newest := Transcript.add entry recording.newest }, reply.events⟩

/-- The transcript in the order of the requests. -/
def transcript (recording : Recording σ) : List Transcript.Entry := recording.newest.reverse

instance : Heap (Recording σ) where
  serve := serve
  memory recording := Heap.memory recording.client.heap
  withMemory memory recording :=
    { recording with client := recording.client.withMemory memory }

end Recording

end RegionHeap
