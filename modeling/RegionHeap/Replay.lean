import RegionHeap.Client
import RegionHeap.Word

/-!
# Replaying bytes as requests

Any byte string is a list of operations of four bytes each: what to do, a
sixteen-bit size with its low byte first, and one of sixty-four slots. A replay
carries them out on a heap and checks it on the way. Each block is filled with
a byte that belongs to its slot, and the bytes are looked at again before an
operation that resizes the block or gives it back by itself. A replay keeps the
size of each slot on its own account; an operation that only changes the size
of a block leaves that account as it is.
-/
namespace RegionHeap

/-- What an operation does with its slot. -/
inductive Opcode where
  | allocate
  | release
  | resize
  | allocateZeroed
  | allocateAligned
deriving Repr, DecidableEq

structure Operation where
  opcode : Opcode
  size : Nat
  slot : Fin 64
deriving Repr, DecidableEq

namespace Operation

def opcodeOf (byte : UInt8) : Opcode :=
  match byte.toNat % 5 with
  | 0 => .allocate
  | 1 => .release
  | 2 => .resize
  | 3 => .allocateZeroed
  | _ => .allocateAligned

/-- The operations that a byte string stands for; up to three bytes are left over. -/
def decode : List UInt8 → List Operation
  | code :: low :: high :: slot :: rest =>
    ⟨opcodeOf code, low.toNat + 256 * high.toNat, Fin.ofNat 64 slot.toNat⟩ :: decode rest
  | _ => []

def count (operation : Operation) : Nat := max (operation.size / 256) 1

def element (operation : Operation) : Nat := max (operation.size % 256) 1

def align (operation : Operation) : Nat := 1 <<< (operation.size % 13)

end Operation

/-- A heap in use, the blocks in the slots, and the account of their sizes. -/
structure Replay (σ : Type) where
  client : Client σ
  slots : Vector (Option Nat) 64 := Vector.replicate 64 none
  sizes : Vector Nat 64 := Vector.replicate 64 0

namespace Replay
variable {σ : Type} [Heap σ]

/-- At most this many bytes of a block are filled and looked at. -/
def window : Nat := 256

def fillByte (slot : Fin 64) : UInt8 := slot.val.toUInt8 ^^^ 0xA5

/-- Look at `count` bytes of a block from `offset` on; each must be `expected`. -/
def expectBytes (client : Client σ) (block : Nat) (expected : UInt8) :
    (offset count : Nat) → Checked Unit
  | _, 0 => return ()
  | offset, count + 1 => do
    let bytes ← client.read block offset 1
    Checked.require (bytes = [expected]) .assertion
    expectBytes client block expected (offset + 1) count

/-- Look at the first bytes of what is in a slot. -/
def check (client : Client σ) (block : Option Nat) (len : Nat) (expected : UInt8) :
    Checked Unit :=
  match block with
  | some block => expectBytes client block expected 0 (min len window)
  | none => Checked.require (min len window = 0) .strayAccess

/-- The slot now holds this block, or nothing, and has this size on account. -/
def settle (replay : Replay σ) (client : Client σ) (slot : Fin 64) (block : Option Nat)
    (size : Nat) : Replay σ :=
  { client := client
    slots := replay.slots.set slot block slot.isLt
    sizes := replay.sizes.set slot size slot.isLt }

/-- Fill the first bytes of the slot's block, up to the size on account. -/
def refill (replay : Replay σ) (slot : Fin 64) (block : Nat) : Checked (Replay σ) := do
  let client ← replay.client.fill block 0 (min (replay.sizes.get slot) window) (fillByte slot)
  return { replay with client := client }

/-- Give back what is in the slot, after a look at it. -/
def releaseSlot (replay : Replay σ) (slot : Fin 64) : Checked (Replay σ) := do
  check replay.client (replay.slots.get slot) (replay.sizes.get slot) (fillByte slot)
  let reply ← replay.client.serve (.release (replay.slots.get slot))
  return replay.settle reply.state slot none 0

/-- Resize what is in the slot and look at it before and after. -/
def resizeSlot (replay : Replay σ) (slot : Fin 64) (size : Nat) : Checked (Replay σ) := do
  check replay.client (replay.slots.get slot) (replay.sizes.get slot) (fillByte slot)
  let reply ← replay.client.serve (.resize (replay.slots.get slot) size)
  match reply.answer with
  | none => return { replay with client := reply.state }
  | some block =>
    check reply.state (some block) (min (replay.sizes.get slot) size) (fillByte slot)
    (replay.settle reply.state slot (some block) (replay.sizes.get slot)).refill slot block

def requestFor (operation : Operation) : Request :=
  match operation.opcode with
  | .allocateZeroed => .allocateZeroed operation.count operation.element
  | .allocateAligned => .allocateAligned operation.align operation.size
  | _ => .allocate operation.size

/-- What an operation demands of the block it has obtained. -/
def checkObtained (client : Client σ) (operation : Operation) (block : Nat) : Checked Unit :=
  match operation.opcode with
  | .allocateZeroed => check client (some block) (operation.count * operation.element) 0
  | .allocateAligned => Checked.require (block % operation.align = 0) .assertion
  | _ => return ()

/-- Replace what is in the slot by a new block; the old one is given back without a look. -/
def replaceSlot (replay : Replay σ) (operation : Operation) : Checked (Replay σ) := do
  let slot := operation.slot
  let released ← replay.client.serve (.release (replay.slots.get slot))
  let request := requestFor operation
  let obtained ← released.state.serve request
  match obtained.answer with
  | none => return replay.settle obtained.state slot none 0
  | some block =>
    checkObtained obtained.state operation block
    (replay.settle obtained.state slot (some block) request.size).refill slot block

def step (replay : Replay σ) (operation : Operation) : Checked (Replay σ) :=
  match operation.opcode with
  | .release => replay.releaseSlot operation.slot
  | .resize => replay.resizeSlot operation.slot operation.size
  | .allocate | .allocateZeroed | .allocateAligned => replay.replaceSlot operation

/-- Give back what is in one slot, without a look. -/
def sweepSlot (replay : Replay σ) (slot : Fin 64) : Checked (Replay σ) := do
  let reply ← replay.client.serve (.release (replay.slots.get slot))
  return { replay with client := reply.state, slots := replay.slots.set slot none slot.isLt }

/-- Give back what is in every slot, in order. -/
def sweep (replay : Replay σ) : Checked (Replay σ) :=
  (List.finRange 64).foldlM sweepSlot replay

/-- Carry out all operations of a byte string and give back what is left. -/
def run (data : List UInt8) (heap : σ) : Checked (Replay σ) := do
  let replay ← (Operation.decode data).foldlM step { client := { heap := heap } }
  replay.sweep

end Replay

end RegionHeap
