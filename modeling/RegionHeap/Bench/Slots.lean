import RegionHeap.Bench.Digest
import RegionHeap.Framed.Call
import RegionHeap.Gateway
import RegionHeap.Growth.Break
import RegionHeap.Growth.Linear
import RegionHeap.Growth.Rationed
import RegionHeap.Host.Ascending
import RegionHeap.Layout
import RegionHeap.Native
import RegionHeap.Sized.TopSpace

/-!
# Heaps on the bench

A heap is tried out through numbered slots, each empty or holding a block with
the size and the alignment it was requested with. An action that makes no sense
for its slot is answered with the reason and never reaches the heap. What is
said of a block does not depend on its address: whether it overlaps another
one, whether it is aligned, what its header says, whether it lies inside the
region.
-/
namespace RegionHeap.Bench

structure Slot where
  address : Nat
  size : Nat
  align : Nat
deriving Repr, DecidableEq

/-- What the bench has to know about a heap besides its requests. -/
structure Profile (σ : Type) where
  /-- Whether there is a header below each block. -/
  framed : Bool
  /-- The region that all blocks lie in, as base and length. -/
  region? : σ → Option (Nat × Nat) := fun _ => none
  /-- The alignment of a block that was resized, given the one it had. -/
  alignAfterResize : Nat → Nat

namespace Profile

/-- A heap that keeps no headers and forgets alignments when it resizes. -/
def hosted {σ : Type} : Profile σ := ⟨false, fun _ => none, fun _ => Word.minAlign⟩

/-- A framed heap over linear memory. -/
def linear {α μ : Type} [Growth.PageStore μ] : Profile (Framed α (Growth.Linear μ)) :=
  ⟨true, fun heap => some (Growth.PageStore.base heap.provider.store, heap.provider.regionSize), id⟩

/-- A framed heap over a rationed region. -/
def rationed {α : Type} : Profile (Framed α Growth.Rationed) :=
  ⟨true, fun heap => some (heap.provider.base, heap.provider.used), id⟩

/-- A framed heap over the break. -/
def process {α : Type} : Profile (Framed α Growth.Break) := ⟨true, fun _ => none, id⟩

end Profile

/-- A heap with numbered slots. -/
structure Slots (σ : Type) where
  client : Client σ
  slots : Std.TreeMap Nat Slot := ∅

namespace Slots

inductive Action where
  /-- Put a new block into an empty slot, by one of the four requests for one. -/
  | obtain (request : Request)
  /-- Put a new block of a layout into an empty slot. -/
  | obtainLayout (zeroed : Bool) (layout : Layout)
  | resize (size : Nat)
  | resizeLayout (size : Nat)
  | release
  | releaseLayout
  /-- Give byte `i` of a range the value `seed + i`. -/
  | fill (offset len seed : Nat)
  | read (offset len : Nat)
  | digest (offset len : Nat)
  /-- Obtain blocks until there are `limit` of them or one is refused. -/
  | exhaust (size limit : Nat) (release : Bool)
deriving Repr, DecidableEq

/-- Why an action was not carried out. -/
inductive Obstacle where
  | occupied
  | empty
  | range
  | layout
deriving Repr, DecidableEq

/-- What is said of a block. -/
structure Report where
  overlaps : Bool
  aligned : Bool
  header : Option Framed.Header
  inside : Option Bool
  zeroed : Option Bool
deriving Repr, DecidableEq

inductive Answer where
  | placed (report : Report)
  /-- The address of an empty layout. -/
  | dangling (address : Nat) (zeroed : Option Bool)
  /-- Nothing, with the header of the block that was to be resized. -/
  | refused (header : Option Framed.Header)
  /-- Whether there was a block to give back. -/
  | released (held : Bool)
  | filled (len : Nat)
  | bytes (content : List UInt8)
  | digest (value : UInt64)
  | exhausted (count : Nat) (refused intact : Bool)
  | obstacle (reason : Obstacle)
deriving Repr, DecidableEq

variable {σ : Type} [Heap σ]

/-- The alignment that a request asks for, if it names one. -/
def alignOf : Request → Nat
  | .allocateAligned align _ => align
  | .allocateZeroedAligned align _ _ => align
  | _ => Word.minAlign

def isZeroing : Request → Bool
  | .allocateZeroed .. => true
  | .allocateZeroedAligned .. => true
  | _ => false

/-- Whether two blocks overlap; even an empty block takes its address. -/
def overlap (base size otherBase otherSize : Nat) : Bool :=
  base < otherBase + max otherSize 1 && otherBase < base + max size 1

/-- The header of a block, where the heap keeps one. -/
def headerOf (profile : Profile σ) (bench : Slots σ) (address : Nat) : Option Framed.Header :=
  if profile.framed then some (.read (Heap.memory bench.client.heap) address) else none

/-- What is said of a block that was just handed out. -/
def report (profile : Profile σ) (bench : Slots σ) (slot : Slot) (zeroing : Bool) : Report where
  overlaps := bench.client.held.foldl (fun found base size =>
    found || (base != slot.address && overlap slot.address slot.size base size)) false
  aligned := slot.address % Framed.Header.alignFor slot.align = 0
  header := bench.headerOf profile slot.address
  inside := (profile.region? bench.client.heap).map fun (base, length) =>
    base + Framed.Header.width ≤ slot.address && slot.address + slot.size ≤ base + length
  zeroed :=
    if zeroing then
      some ((Heap.memory bench.client.heap).allEqual 0 slot.address slot.size)
    else
      none

/-- An answer without any effect. -/
def refuse (bench : Slots σ) (reason : Obstacle) : Reply Answer (Slots σ) :=
  ⟨.obstacle reason, bench, []⟩

/-- Put a block that was handed out into a slot and report on it. -/
def hold (profile : Profile σ) (bench : Slots σ) (index : Nat) (slot : Slot) (zeroing : Bool) :
    Answer × Slots σ :=
  let bench := { bench with slots := bench.slots.insert index slot }
  (.placed (bench.report profile slot zeroing), bench)

/-- The same for a layout. An empty one may have its dangling address. -/
def holdLayout (profile : Profile σ) (bench : Slots σ) (index : Nat) (slot : Slot)
    (zeroing : Bool) : Answer × Slots σ :=
  if slot.size = 0 ∧ slot.address = slot.align then
    (.dangling slot.address (if zeroing then some true else none),
      { bench with slots := bench.slots.insert index slot })
  else
    bench.hold profile index slot zeroing

def obtain (profile : Profile σ) (bench : Slots σ) (index : Nat) (request : Request) :
    Checked (Reply Answer (Slots σ)) := do
  if bench.slots.contains index then
    return bench.refuse .occupied
  let reply ← bench.client.serve request
  let bench := { bench with client := reply.state }
  match reply.answer with
  | none => return ⟨.refused none, bench, reply.events⟩
  | some address =>
    let (answer, bench) := bench.hold profile index
      ⟨address, request.size, alignOf request⟩ (isZeroing request)
    return ⟨answer, bench, reply.events⟩

def obtainLayout (profile : Profile σ) (bench : Slots σ) (index : Nat) (zeroed : Bool)
    (layout : Layout) : Checked (Reply Answer (Slots σ)) := do
  if bench.slots.contains index then
    return bench.refuse .occupied
  if ¬layout.Valid then
    return bench.refuse .layout
  let reply ← if zeroed then layout.allocateZeroed bench.client else layout.allocate bench.client
  let bench := { bench with client := reply.state }
  match reply.answer with
  | none => return ⟨.refused none, bench, reply.events⟩
  | some address =>
    let (answer, bench) := bench.holdLayout profile index
      ⟨address, layout.size, layout.align⟩ zeroed
    return ⟨answer, bench, reply.events⟩

def resize (profile : Profile σ) (bench : Slots σ) (index size : Nat) :
    Checked (Reply Answer (Slots σ)) := do
  let slot := bench.slots[index]?
  let reply ← bench.client.serve (.resize (slot.map (·.address)) size)
  let bench := { bench with client := reply.state }
  match reply.answer with
  | none =>
    let header := slot.bind fun slot => bench.headerOf profile slot.address
    return ⟨.refused header, bench, reply.events⟩
  | some address =>
    let align := match slot with
      | some slot => profile.alignAfterResize slot.align
      | none => Word.minAlign
    let (answer, bench) := bench.hold profile index ⟨address, size, align⟩ false
    return ⟨answer, bench, reply.events⟩

def resizeLayout (profile : Profile σ) (bench : Slots σ) (index size : Nat) :
    Checked (Reply Answer (Slots σ)) := do
  match bench.slots[index]? with
  | none => return bench.refuse .empty
  | some slot =>
    if ¬(Layout.mk size slot.align).Valid then
      return bench.refuse .layout
    let reply ← (Layout.mk slot.size slot.align).resize slot.address size bench.client
    let bench := { bench with client := reply.state }
    match reply.answer with
    | none => return ⟨.refused none, bench, reply.events⟩
    | some address =>
      let (answer, bench) := bench.holdLayout profile index ⟨address, size, slot.align⟩ false
      return ⟨answer, bench, reply.events⟩

def release (bench : Slots σ) (index : Nat) : Checked (Reply Answer (Slots σ)) := do
  let slot := bench.slots[index]?
  let reply ← bench.client.serve (.release (slot.map (·.address)))
  return ⟨.released slot.isSome, ⟨reply.state, bench.slots.erase index⟩, reply.events⟩

def releaseLayout (bench : Slots σ) (index : Nat) : Checked (Reply Answer (Slots σ)) := do
  match bench.slots[index]? with
  | none => return bench.refuse .empty
  | some slot =>
    let reply ← (Layout.mk slot.size slot.align).release slot.address bench.client
    return ⟨.released true, ⟨reply.state, bench.slots.erase index⟩, reply.events⟩

/-- Do something with a range of the block in a slot. -/
def withRange (bench : Slots σ) (index offset len : Nat)
    (use : Nat → Checked (Answer × Client σ)) : Checked (Reply Answer (Slots σ)) := do
  match bench.slots[index]? with
  | none => return bench.refuse .empty
  | some slot =>
    if offset + len ≤ Word.max ∧ offset + len ≤ slot.size then
      let (answer, client) ← use slot.address
      return ⟨answer, { bench with client := client }, []⟩
    else
      return bench.refuse .range

/-- Obtain up to `limit` blocks and fill each with its number. The blocks are
returned newest first. -/
def obtainMany (size : Nat) : Nat → Client σ → List (Nat × UInt8) → List Event →
    Checked (Bool × Client σ × List (Nat × UInt8) × List Event)
  | 0, client, blocks, events => return (false, client, blocks, events)
  | limit + 1, client, blocks, events => do
    let reply ← client.serve (.allocate size)
    match reply.answer with
    | none => return (true, reply.state, blocks, events ++ reply.events)
    | some block =>
      let value := blocks.length.toUInt8
      let filled ← reply.state.fill block 0 size value
      obtainMany size limit filled ((block, value) :: blocks) (events ++ reply.events)

def releaseMany (client : Client σ) (blocks : List (Nat × UInt8)) : Checked (Client σ) :=
  blocks.foldlM (fun client block => do
    return (← client.serve (.release (some block.1))).state) client

def exhaust (bench : Slots σ) (size limit : Nat) (release : Bool) :
    Checked (Reply Answer (Slots σ)) := do
  let (refused, client, blocks, events) ← obtainMany size limit bench.client [] []
  let intact := blocks.all fun (block, value) =>
    (Heap.memory client.heap).allEqual value block size
  let client ← if release then releaseMany client blocks.reverse else pure client
  return ⟨.exhausted blocks.length refused intact, { bench with client := client }, events⟩

/-- Carry out an action on the slot of the given number. -/
def step (profile : Profile σ) (bench : Slots σ) (index : Nat) (action : Action) :
    Checked (Reply Answer (Slots σ)) :=
  match action with
  | .obtain request => bench.obtain profile index request
  | .obtainLayout zeroed layout => bench.obtainLayout profile index zeroed layout
  | .resize size => bench.resize profile index size
  | .resizeLayout size => bench.resizeLayout profile index size
  | .release => bench.release index
  | .releaseLayout => bench.releaseLayout index
  | .fill offset len seed =>
    bench.withRange index offset len fun base => do
      let client ← bench.client.update base offset len fun address =>
        (seed + (address - (base + offset))).toUInt8
      return (.filled len, client)
  | .read offset len =>
    bench.withRange index offset len fun base => do
      return (.bytes (← bench.client.read base offset len), bench.client)
  | .digest offset len =>
    bench.withRange index offset len fun base =>
      let memory := Heap.memory bench.client.heap
      return (.digest (memory.digest (base + offset) len), bench.client)
  | .exhaust size limit release => bench.exhaust size limit release

end Slots

end RegionHeap.Bench
