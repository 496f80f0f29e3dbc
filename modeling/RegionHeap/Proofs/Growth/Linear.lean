import RegionHeap.Growth.Linear
import RegionHeap.Proofs.Checked
import RegionHeap.Proofs.Growth.PageStore

/-!
# One request to a linear region

The address of a page is the base plus so many pages, as a number, unless that is
the largest word or more. Rounding a positive number of bytes up to pages always
succeeds. Over a store that keeps its contract the old end of the region is an
address whenever pages were added to it, because the new end still lies in the
address space. So the region refuses exactly what its store refuses.
-/
namespace RegionHeap.Growth.Linear

open Checked

variable {μ : Type} [PageStore μ] {Fit : μ → Prop} {region : Linear μ} {delta : Int}
  {pages : Nat}

/-- Where the region ends, be it an address or not. -/
def stop (region : Linear μ) : Nat :=
  PageStore.base region.store + PageStore.size region.store * linearPageSize

/-- The least number of pages that have room for `delta` bytes. -/
def pagesFor (delta : Int) : Nat := (delta.toNat + linearPageSize - 1) / linearPageSize

/-- A page starts at the address that its number says, computed without any bound, as long
as that is an address and not the largest word. -/
theorem pageAddress?_eq (base page : Nat) :
    pageAddress? base page =
      if base + page * linearPageSize < Word.max then some (base + page * linearPageSize)
      else none := by
  have hmax : Word.max < Word.bound := by decide
  have hbound : Word.bound ≤ Word.max + 1 := by decide
  unfold pageAddress? Word.mul? Word.add?
  by_cases hoffset : page * linearPageSize < Word.bound
  · rw [if_pos hoffset, Option.bind_eq_bind, Option.bind_some]
    by_cases hsum : base + page * linearPageSize < Word.bound
    · rw [if_pos hsum, Option.bind_some]
      by_cases hlast : base + page * linearPageSize = Word.max
      · rw [if_pos hlast, if_neg (by omega)]
      · rw [if_neg hlast, if_pos (by omega)]
    · rw [if_neg hsum, if_neg (by omega)]
      rfl
  · rw [if_neg hoffset, if_neg (by omega)]
    rfl

theorem top_eq (region : Linear μ) :
    region.top = if region.stop < Word.max then some region.stop else none :=
  pageAddress?_eq _ _

omit [PageStore μ] in
theorem notices_eq (region : Linear μ) (base bytes : Nat) :
    region.notices base bytes = (region.observer.map (Event.noticed · base bytes)).toList := by
  unfold notices
  cases region.observer <;> rfl

theorem pagesFor_pos (h : 0 < delta) : 0 < pagesFor delta := by
  simp only [pagesFor, linearPageSize]
  omega

theorem pagesFor_lt (h : delta ≤ Word.signedMax) : pagesFor delta < Word.bound := by
  simp only [pagesFor, linearPageSize, Word.signedMax, Word.bound] at *
  omega

theorem grow_of_neg (h : delta < 0) :
    Provider.grow delta region = .ok ⟨none, region, []⟩ := if_pos h

theorem grow_zero : Provider.grow 0 region = .ok ⟨region.top, region, []⟩ := rfl

/-- No positive number of bytes is too large to be rounded up. -/
theorem roundUp_pagesFor (h : 0 < delta) (hsigned : delta ≤ Word.signedMax) :
    Word.roundUp delta.toNat linearPageSize = .ok (some (pagesFor delta * linearPageSize)) := by
  have hpower : Word.isPowerOfTwo linearPageSize := by decide
  have hceiling : Word.ceiling delta.toNat linearPageSize = pagesFor delta * linearPageSize := rfl
  have hword : Word.ceiling delta.toNat linearPageSize < Word.bound := by
    have hlt := Word.ceiling_lt delta.toNat (show 0 < linearPageSize by decide)
    simp only [linearPageSize, Word.signedMax, Word.bound] at *
    omega
  rw [Word.roundUp_eq delta.toNat hpower (by decide), if_pos hword, hceiling]

theorem grow_of_pos (h : 0 < delta) (hsigned : delta ≤ Word.signedMax) :
    region.grow delta = .ok (region.growPages (pagesFor delta * linearPageSize)) := by
  rw [grow, if_neg (by omega), if_neg (by omega), roundUp_pagesFor h hsigned]
  rfl

/-- Without an address the region refuses, be it that the store refused or that the pages it
added start past the address space. They are not given back, and nobody is told. -/
theorem growPages_of_none
    (h : (PageStore.grow pages region.store).1.bind
      (pageAddress? (PageStore.base (PageStore.grow pages region.store).2)) = none) :
    region.growPages (pages * linearPageSize) =
      ⟨none, { region with store := (PageStore.grow pages region.store).2 },
        [.pagesAsked pages (PageStore.grow pages region.store).1]⟩ := by
  have hpages : pages * linearPageSize / linearPageSize = pages :=
    Nat.mul_div_cancel pages (by decide)
  simp only [growPages, hpages, h]

theorem growPages_of_some {base : Nat}
    (h : (PageStore.grow pages region.store).1.bind
      (pageAddress? (PageStore.base (PageStore.grow pages region.store).2)) = some base) :
    region.growPages (pages * linearPageSize) =
      ⟨some base, { region with store := (PageStore.grow pages region.store).2 },
        .pagesAsked pages (PageStore.grow pages region.store).1 ::
          (region.observer.map (Event.noticed · base (pages * linearPageSize))).toList⟩ := by
  have hpages : pages * linearPageSize / linearPageSize = pages :=
    Nat.mul_div_cancel pages (by decide)
  simp only [growPages, hpages, h]
  rw [← notices_eq]
  rfl

theorem growPages_refused (h : (PageStore.grow pages region.store).1 = none) :
    region.growPages (pages * linearPageSize) =
      ⟨none, { region with store := (PageStore.grow pages region.store).2 },
        [.pagesAsked pages none]⟩ := by
  rw [growPages_of_none (by rw [h, Option.bind_none]), h]

section contract

variable (contract : PageStore.Contract Fit) (hfit : Fit region.store)

include contract hfit

/-- The new end of the region is within the address space, so the old one is an address. -/
theorem growPages_granted (hpos : 0 < pages) (hword : pages < Word.bound)
    (h : (PageStore.grow pages region.store).1 = some (PageStore.size region.store)) :
    region.top = some region.stop ∧
      region.growPages (pages * linearPageSize) =
        ⟨some region.stop, { region with store := (PageStore.grow pages region.store).2 },
          .pagesAsked pages (some (PageStore.size region.store)) ::
            (region.observer.map
              (Event.noticed · region.stop (pages * linearPageSize))).toList⟩ := by
  have hbase := contract.base hfit hword
  have haddress : region.stop < Word.max := by
    have hend := contract.within (contract.fit hfit hword)
    rcases contract.grow hfit hword with ⟨hnone, -⟩ | ⟨-, hsize⟩
    · cases hnone.symm.trans h
    · rw [hbase, hsize, Nat.add_mul, ← Nat.add_assoc, ← stop] at hend
      have hpage := Nat.mul_le_mul_right linearPageSize hpos
      have hroom : Word.bound < Word.max + 1 * linearPageSize := by decide
      omega
  have htop : region.top = some region.stop := by rw [top_eq, if_pos haddress]
  have hprevious : pageAddress? (PageStore.base region.store) (PageStore.size region.store) =
      some region.stop := htop
  refine ⟨htop, ?_⟩
  rw [growPages_of_some (by rw [h, Option.bind_some, hbase, hprevious]), h]

end contract

/-- What becomes of a request for `delta` bytes while `observer` is the observer. -/
inductive Grown (region : Linear μ) (observer : Option Observer) (delta : Int) : Prop
  /-- The store refuses, and so does the region. -/
  | refused {store : μ} : PageStore.grow (pagesFor delta) region.store = (none, store) →
      PageStore.size store = PageStore.size region.store →
      Provider.grow delta region =
        .ok ⟨none, { region with store := store }, [.pagesAsked (pagesFor delta) none]⟩ →
      Grown region observer delta
  /-- The store adds the pages; the answer is the old top, and the observer is told. -/
  | granted {store : μ} {top : Nat} :
      PageStore.grow (pagesFor delta) region.store =
        (some (PageStore.size region.store), store) →
      PageStore.size store = PageStore.size region.store + pagesFor delta →
      region.top = some top →
      Provider.grow delta region = .ok ⟨some top, { region with store := store },
        .pagesAsked (pagesFor delta) (some (PageStore.size region.store)) ::
          (observer.map (Event.noticed · top (pagesFor delta * linearPageSize))).toList⟩ →
      Grown region observer delta

theorem grown (contract : PageStore.Contract Fit) (hfit : Fit region.store) (h : 0 < delta)
    (hsigned : delta ≤ Word.signedMax) : Grown region region.observer delta := by
  have hgrow : Provider.grow delta region = _ := grow_of_pos h hsigned
  have hword := pagesFor_lt hsigned
  rcases contract.grow hfit hword with ⟨hnone, hsize⟩ | ⟨hsome, hsize⟩
  · rw [growPages_refused hnone] at hgrow
    exact .refused (Prod.ext hnone rfl) hsize hgrow
  · obtain ⟨htop, hpages⟩ := growPages_granted contract hfit (pagesFor_pos h) hword hsome
    rw [hpages] at hgrow
    exact .granted (Prod.ext hsome rfl) hsize htop hgrow

end RegionHeap.Growth.Linear
