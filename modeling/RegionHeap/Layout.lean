import RegionHeap.Client
import RegionHeap.Word

/-!
# Allocation by layout

Here a block is described by a layout, a size together with an alignment, and
whoever gives it back or resizes it describes it again. An empty layout needs
no block: it gets an address that is a multiple of its alignment and stands for
no memory, and that address is recognised only by its layout. The heap itself
aligns to sixteen bytes, so larger alignments ask for it, and a block with such
an alignment is moved by hand when it is resized.
-/
namespace RegionHeap

structure Layout where
  size : Nat
  align : Nat
deriving Repr, DecidableEq

namespace Layout

/-- Layouts that can be described: the alignment is a power of two, and the
size, rounded up to it, is a signed word. -/
def Valid (layout : Layout) : Prop :=
  Word.isPowerOfTwo layout.align ∧ layout.size + layout.align ≤ 1 <<< 63

instance (layout : Layout) : Decidable layout.Valid := by
  unfold Valid
  infer_instance

/-- The address for an empty layout. -/
def dangling (layout : Layout) : Nat := layout.align

variable {σ : Type} [Heap σ]

def allocate (layout : Layout) (client : Client σ) :
    Checked (Reply (Option Nat) (Client σ)) :=
  if layout.size = 0 then
    return ⟨some layout.dangling, client, []⟩
  else if layout.align ≤ Word.minAlign then
    client.serve (.allocate layout.size)
  else
    client.serve (.allocateAligned layout.align layout.size)

def allocateZeroed (layout : Layout) (client : Client σ) :
    Checked (Reply (Option Nat) (Client σ)) :=
  if layout.size = 0 then
    return ⟨some layout.dangling, client, []⟩
  else if layout.align ≤ Word.minAlign then
    client.serve (.allocateZeroed 1 layout.size)
  else
    client.serve (.allocateZeroedAligned layout.align 1 layout.size)

/-- Give a block back; one of an empty layout was never taken. -/
def release (layout : Layout) (block : Nat) (client : Client σ) :
    Checked (Reply (Option Nat) (Client σ)) :=
  if layout.size = 0 then
    return ⟨none, client, []⟩
  else
    client.serve (.release (some block))

/-- Move a block to a new one of `size` bytes with the same alignment. -/
def move (layout : Layout) (block size : Nat) (client : Client σ) :
    Checked (Reply (Option Nat) (Client σ)) := do
  let fresh ← client.serve (.allocateAligned layout.align size)
  match fresh.answer with
  | none => return fresh
  | some target =>
    let copied ← fresh.state.copy target block (min layout.size size)
    let released ← copied.serve (.release (some block))
    return ⟨some target, released.state, fresh.events ++ released.events⟩

/-- Give a block another size. -/
def resize (layout : Layout) (block size : Nat) (client : Client σ) :
    Checked (Reply (Option Nat) (Client σ)) :=
  if layout.size = 0 then
    allocate ⟨size, layout.align⟩ client
  else if layout.align ≤ Word.minAlign then
    client.serve (.resize (some block) size)
  else
    layout.move block size client

end Layout

end RegionHeap
