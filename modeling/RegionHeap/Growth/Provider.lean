import RegionHeap.Event
import RegionHeap.Word

/-!
# Growth providers

A provider extends one region of memory and never takes any of it back. Asked
for a positive number of bytes it gives the old top, which is the base of the
new block; asked for none it gives the top and leaves the region alone; a
negative number is always refused. A refusal is `none`, the counterpart of the
largest word, which can therefore never be the base of a block.
-/
namespace RegionHeap.Growth

class Provider (ρ : Type) where
  grow : Int → ρ → Checked (Reply (Option Nat) ρ)
  /-- The unit of growth in bytes. -/
  pageSize : ρ → Nat
  /-- Whether new memory is promised to read as zero. -/
  growsZeroed : ρ → Bool := fun _ => false
  /-- Tell an observer about growth from now on, if the provider can. -/
  setObserver : Observer → ρ → Bool × ρ := fun _ provider => (false, provider)

end RegionHeap.Growth
