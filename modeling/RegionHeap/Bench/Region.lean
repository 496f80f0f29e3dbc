import RegionHeap.Growth.Linear
import RegionHeap.Memory

/-!
# A linear region on the bench

Steps on a linear region as somebody would try it out: grow it, grow its page
store behind its back, change its observer, and use its memory if it has any.
After every step the region can be inspected.
-/
namespace RegionHeap.Bench

/-- A linear region with the limit of its store and, possibly, memory behind it. -/
structure Region (μ : Type) where
  region : Growth.Linear μ
  limit : Nat
  storage : Option Memory := none

namespace Region

inductive Step where
  | grow (delta : Int)
  /-- Grow the page store directly; the region is not told. -/
  | growStore (pages : Nat)
  | facts
  | setObserver (observer : Observer)
  | clearObserver
  | write (offset len : Nat) (value : UInt8)
  | sum (offset len : Nat)
  | look
deriving Repr, DecidableEq

inductive Answer where
  | address (base : Option Nat)
  | pages (previous : Option Nat)
  | facts (pageSize : Nat) (growsZeroed : Bool) (limit : Nat)
  | flag (value : Bool)
  | total (sum : Nat)
  | outOfRange
  | nothing
deriving Repr, DecidableEq

variable {μ : Type} [Growth.PageStore μ]

/-- The memory behind a range of the region, if all of the range is there. -/
def backing? (bench : Region μ) (offset len : Nat) : Option Memory :=
  if offset + len ≤ Word.max ∧ offset + len ≤ bench.region.regionSize then bench.storage else none

def step (bench : Region μ) : Step → Checked (Reply Answer (Region μ))
  | .grow delta => do
    let reply ← Growth.Provider.grow delta bench.region
    return ⟨.address reply.answer, { bench with region := reply.state }, reply.events⟩
  | .growStore pages =>
    let (previous, store) := Growth.PageStore.grow pages bench.region.store
    return ⟨.pages previous, { bench with region := { bench.region with store := store } },
      [.pagesAsked pages previous]⟩
  | .facts =>
    return ⟨.facts (Growth.Provider.pageSize bench.region)
      (Growth.Provider.growsZeroed bench.region) bench.limit, bench, []⟩
  | .setObserver observer =>
    let (accepted, region) := Growth.Provider.setObserver observer bench.region
    return ⟨.flag accepted, { bench with region := region }, []⟩
  | .clearObserver =>
    return ⟨.flag true, { bench with region := bench.region.clearObserver }, []⟩
  | .write offset len value =>
    let base := Growth.PageStore.base bench.region.store
    match bench.backing? offset len with
    | some memory =>
      return ⟨.flag true, { bench with storage := memory.fill (base + offset) len value }, []⟩
    | none => return ⟨.outOfRange, bench, []⟩
  | .sum offset len =>
    let base := Growth.PageStore.base bench.region.store
    match bench.backing? offset len with
    | some memory =>
      return ⟨.total ((memory.bytes (base + offset) len).foldl (fun n b => n + b.toNat) 0),
        bench, []⟩
    | none => return ⟨.outOfRange, bench, []⟩
  | .look => return ⟨.nothing, bench, []⟩

end Region

end RegionHeap.Bench
