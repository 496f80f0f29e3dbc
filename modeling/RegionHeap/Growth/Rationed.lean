import RegionHeap.Growth.Provider

/-!
# Rationed growth

A rationed region is one contiguous range with a free choice of everything a
provider may vary: the unit of growth, the number of bytes there are, whether
they read as zero, and which requests are refused although there is room.
Requests are numbered from zero, refused ones included.
-/
namespace RegionHeap.Growth

structure Rationed where
  base : Nat
  unit : Nat
  capacity : Nat
  zeroed : Bool
  denied : List Nat
  /-- The number of requests so far. -/
  requests : Nat := 0
  /-- The number of bytes given out so far. -/
  used : Nat := 0
deriving Repr, DecidableEq

namespace Rationed

/-- Whether the next request is met if it asks for `delta` bytes. -/
def grants (region : Rationed) (delta : Int) : Bool :=
  0 ≤ delta && !region.denied.contains region.requests &&
    delta.toNat ≤ region.capacity - region.used

def grow (delta : Int) (region : Rationed) : Checked (Reply (Option Nat) Rationed) :=
  let counted := { region with requests := region.requests + 1 }
  if region.grants delta then
    return ⟨some (region.base + region.used),
      { counted with used := region.used + delta.toNat }, []⟩
  else
    return ⟨none, counted, []⟩

instance : Provider Rationed where
  grow := grow
  pageSize := unit
  growsZeroed := zeroed

end Rationed

end RegionHeap.Growth
