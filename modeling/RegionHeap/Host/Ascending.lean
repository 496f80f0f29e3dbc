import Std.Data.TreeMap
import RegionHeap.Host.Allocator

/-!
# The ascending host allocator

A host allocator that never uses an address twice: every new block lies above
all earlier ones. It refuses blocks that would not fit into `2 ^ 48` bytes
together with their alignment. A resized block moves, unless it is given the
size zero.
-/
namespace RegionHeap

structure Ascending where
  /-- No block reaches to this address or beyond. -/
  next : Nat := 1 <<< 32
  /-- The sizes of the live blocks by their bases. -/
  sizes : Std.TreeMap Nat Nat := ∅

namespace Ascending

/-- The first size that is never given. -/
def sizeLimit : Nat := 1 <<< 48

/-- Put a block at the first multiple of `align` that is free. Even a block of
no bytes takes an address of its own. -/
def place (align size : Nat) (host : Ascending) (m : Memory) : Outcome Ascending :=
  let base := Word.ceiling host.next align
  if size + align < sizeLimit ∧ base + size < Word.signedMax then
    ⟨some base, ⟨base + size + 1, host.sizes.insert base size⟩, m⟩
  else
    ⟨none, host, m⟩

def acquire (size : Nat) (host : Ascending) (m : Memory) : Outcome Ascending :=
  host.place Word.minAlign size m

def acquireAligned (align size : Nat) (host : Ascending) (m : Memory) : Outcome Ascending :=
  if Word.isPowerOfTwo align ∧ align % HostAllocator.addressSize = 0 then
    host.place (max align Word.minAlign) size m
  else
    ⟨none, host, m⟩

def acquireZeroed (count size : Nat) (host : Ascending) (m : Memory) : Outcome Ascending :=
  match Word.mul? count size with
  | none => ⟨none, host, m⟩
  | some bytes =>
    let outcome := host.acquire bytes m
    match outcome.base with
    | none => outcome
    | some base => { outcome with memory := outcome.memory.fill base bytes 0 }

/-- The size of a block that has to be live. -/
def sizeOf (host : Ascending) (base : Nat) : Checked Nat :=
  match host.sizes[base]? with
  | some size => .ok size
  | none => .error .deadBlock

def forget (base : Nat) (host : Ascending) : Ascending :=
  { host with sizes := host.sizes.erase base }

def resize (block : Option Nat) (size : Nat) (host : Ascending) (m : Memory) :
    Checked (Outcome Ascending) :=
  match block with
  | none => return host.acquire size m
  | some old => do
    let oldSize ← host.sizeOf old
    if size = 0 then
      return ⟨none, host.forget old, m⟩
    else
      let outcome := host.acquire size m
      match outcome.base with
      | none => return ⟨none, host, m⟩
      | some base =>
        return ⟨some base, outcome.state.forget old,
          outcome.memory.copy base old (min oldSize size)⟩

def release (block : Option Nat) (host : Ascending) (m : Memory) :
    Checked (Ascending × Memory) :=
  match block with
  | none => return (host, m)
  | some base => do
    let _ ← host.sizeOf base
    return (host.forget base, m)

instance : HostAllocator Ascending where
  empty := {}
  acquire := acquire
  acquireAligned := acquireAligned
  acquireZeroed := acquireZeroed
  resize := resize
  release := release
  Live host base size := host.sizes[base]? = some size

end Ascending

end RegionHeap
