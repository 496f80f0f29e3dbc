import RegionHeap.Growth.PageStore
import RegionHeap.Growth.Provider

/-!
# Growth over a linear memory

A linear region has no break of its own: its top is the end of its page store.
Growth is rounded up to whole pages and asked for once. The address of a page
is computed without wrapping, and the largest word is never an address because
it stands for a refusal. A page count that ends at or beyond that address can
still be counted, so the top may be missing while the size in bytes saturates.
-/
namespace RegionHeap.Growth

/-- A page store with at most one observer. -/
structure Linear (μ : Type) where
  store : μ
  observer : Option Observer := none
deriving Repr, DecidableEq

namespace Linear
variable {μ : Type} [PageStore μ]

/-- The address at which page `page` starts, if there is such an address. -/
def pageAddress? (base page : Nat) : Option Nat := do
  let offset ← Word.mul? page linearPageSize
  let address ← Word.add? base offset
  if address = Word.max then none else some address

/-- The end of the region. -/
def top (region : Linear μ) : Option Nat :=
  pageAddress? (PageStore.base region.store) (PageStore.size region.store)

/-- The size of the region in bytes. -/
def regionSize (region : Linear μ) : Nat :=
  Word.mulSat (PageStore.size region.store) linearPageSize

/-- The notice of a new block, if anyone wants it. -/
def notices (region : Linear μ) (base bytes : Nat) : List Event :=
  match region.observer with
  | some observer => [.noticed observer base bytes]
  | none => []

/-- Ask the store for the pages of a block of `bytes` bytes. -/
def growPages (bytes : Nat) (region : Linear μ) : Reply (Option Nat) (Linear μ) :=
  let pages := bytes / linearPageSize
  let (previous, store) := PageStore.grow pages region.store
  let region := { region with store := store }
  let asked := Event.pagesAsked pages previous
  match previous.bind (pageAddress? (PageStore.base store)) with
  | some base => ⟨some base, region, asked :: region.notices base bytes⟩
  | none => ⟨none, region, [asked]⟩

def grow (delta : Int) (region : Linear μ) : Checked (Reply (Option Nat) (Linear μ)) := do
  if delta < 0 then
    return ⟨none, region, []⟩
  else if delta = 0 then
    return ⟨region.top, region, []⟩
  else
    match ← Word.roundUp delta.toNat linearPageSize with
    | some bytes => return region.growPages bytes
    | none => return ⟨none, region, []⟩

def clearObserver (region : Linear μ) : Linear μ := { region with observer := none }

instance : Provider (Linear μ) where
  grow := grow
  pageSize _ := linearPageSize
  growsZeroed _ := true
  setObserver observer region := (true, { region with observer := some observer })

end Linear

end RegionHeap.Growth
