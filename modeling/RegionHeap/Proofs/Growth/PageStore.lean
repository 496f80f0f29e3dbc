import Mathlib.Data.Option.Basic
import RegionHeap.Growth.PageStore
import RegionHeap.Proofs.Word

/-!
# The contract of a page store

A page store keeps its contract in the states that fit if its memory stays where
it is and ends within the address space, and if it either adds exactly the pages
that it is asked for, answering how many it had, or refuses and stays as large as
it was. A store with a limit that lies within the address space is one; a page
count may have such a limit, and a reservation always has it, provided that the
system reserves only addresses that there are.
-/
namespace RegionHeap.Growth

namespace PageStore

variable {μ : Type} [PageStore μ]

/-- What a linear region relies on in its page store. -/
structure Contract (Fit : μ → Prop) : Prop where
  within : ∀ {store}, Fit store →
    PageStore.base store + PageStore.size store * linearPageSize ≤ Word.bound
  base : ∀ {store pages}, Fit store → pages < Word.bound →
    PageStore.base (PageStore.grow pages store).2 = PageStore.base store
  grow : ∀ {store pages}, Fit store → pages < Word.bound →
    (PageStore.grow pages store).1 = none ∧
        PageStore.size (PageStore.grow pages store).2 = PageStore.size store ∨
      (PageStore.grow pages store).1 = some (PageStore.size store) ∧
        PageStore.size (PageStore.grow pages store).2 = PageStore.size store + pages
  fit : ∀ {store pages}, Fit store → pages < Word.bound → Fit (PageStore.grow pages store).2

structure Within (limit : μ → Nat) (store : μ) : Prop where
  pages : size store ≤ limit store
  range : base store + limit store * linearPageSize ≤ Word.bound

/-- The store adds pages up to a fixed limit and changes nothing else. -/
def Limited (limit : μ → Nat) : Prop :=
  ∀ pages store, grow pages store = (none, store) ∨
    ∃ next, grow pages store = (some (size store), next) ∧ size next = size store + pages ∧
      size next ≤ limit store ∧ base next = base store ∧ limit next = limit store

theorem Limited.contract {limit : μ → Nat} (h : Limited limit) : Contract (Within limit) where
  within := by
    intro store within
    have hpages := Nat.mul_le_mul_right linearPageSize within.pages
    exact Nat.le_trans (Nat.add_le_add_left hpages _) within.range
  base := by
    intro store pages _ _
    rcases h pages store with hgrow | ⟨next, hgrow, -, -, hbase, -⟩
    · rw [hgrow]
    · rwa [hgrow]
  grow := by
    intro store pages _ _
    rcases h pages store with hgrow | ⟨next, hgrow, hsize, -⟩
    · rw [hgrow]
      exact .inl ⟨rfl, rfl⟩
    · rw [hgrow]
      exact .inr ⟨rfl, hsize⟩
  fit := by
    intro store pages within _
    rcases h pages store with hgrow | ⟨next, hgrow, -, hlimit, hbase, hsame⟩
    · rwa [hgrow]
    · rw [hgrow]
      exact ⟨by rwa [hsame], by rw [hbase, hsame]; exact within.range⟩

end PageStore

theorem enlarged?_eq_some {limit current pages next : Nat}
    (h : enlarged? limit current pages = some next) : next = current + pages ∧ next ≤ limit := by
  unfold enlarged? at h
  split at h
  · cases h
  · obtain ⟨hsum, hlimit⟩ := Option.filter_eq_some_iff.mp h
    exact ⟨(Word.add?_eq_some.mp hsum).2.symm, of_decide_eq_true hlimit⟩

/-- A count that is a refusal in disguise has no room for a page, so only the sum matters. -/
theorem enlarged?_of_pos {pages : Nat} (limit current : Nat) (h : 0 < pages) :
    enlarged? limit current pages =
      if current + pages < Word.bound ∧ current + pages ≤ limit then some (current + pages)
      else none := by
  have hmax : Word.bound ≤ Word.max + 1 := by decide
  unfold enlarged? Word.add?
  by_cases hword : current + pages < Word.bound
  · rw [if_neg (by omega), if_pos hword]
    by_cases hlimit : current + pages ≤ limit
    · rw [if_pos ⟨hword, hlimit⟩]
      exact Option.filter_eq_some_iff.mpr ⟨rfl, decide_eq_true hlimit⟩
    · rw [if_neg (fun hroom => hlimit hroom.2), Option.filter_eq_none_iff]
      intro sum hsum hle
      rw [← Option.some.inj hsum] at hle
      exact hlimit (of_decide_eq_true hle)
  · rw [if_neg hword, Option.filter_none, ite_self, if_neg (fun hroom => hword hroom.1)]

/-- A store whose limit is no refusal in disguise refuses only what its limit forbids. -/
theorem lt_of_enlarged?_eq_none {limit current pages : Nat} (hlimit : limit < Word.max)
    (hcurrent : current ≤ limit) (h : enlarged? limit current pages = none) :
    limit < current + pages := by
  unfold enlarged? at h
  rw [if_neg (Nat.ne_of_lt (Nat.lt_of_le_of_lt hcurrent hlimit)), Option.filter_eq_none_iff] at h
  apply Nat.lt_of_not_le
  intro hroom
  have hword : current + pages < Word.bound :=
    Nat.lt_of_le_of_lt hroom (Nat.lt_of_lt_of_le hlimit (Nat.sub_le _ _))
  exact h _ (if_pos hword) (decide_eq_true hroom)

theorem PageCounter.limited : PageStore.Limited PageCounter.limit := by
  intro pages store
  change PageCounter.grow pages store = _ ∨ ∃ next, PageCounter.grow pages store = _ ∧ _
  unfold PageCounter.grow
  split
  · rename_i next hnext
    obtain ⟨rfl, hlimit⟩ := enlarged?_eq_some hnext
    exact .inr ⟨_, rfl, rfl, hlimit, rfl, rfl⟩
  · exact .inl rfl

/-- The pages can be counted, and the limit allows them. -/
def PageCounter.HasRoom (store : PageCounter) (pages : Nat) : Prop :=
  store.pages + pages < Word.bound ∧ store.pages + pages ≤ store.limit

instance (store : PageCounter) (pages : Nat) : Decidable (store.HasRoom pages) :=
  inferInstanceAs (Decidable (_ ∧ _))

theorem PageCounter.grow_of_pos {pages : Nat} (store : PageCounter) (h : 0 < pages) :
    PageStore.grow pages store =
      if store.HasRoom pages then
        (some store.pages, { store with pages := store.pages + pages })
      else (none, store) := by
  have henlarged : enlarged? store.limit store.pages pages =
      if store.HasRoom pages then some (store.pages + pages) else none :=
    enlarged?_of_pos _ _ h
  change PageCounter.grow pages store = _
  rw [PageCounter.grow, henlarged]
  by_cases hroom : store.HasRoom pages
  · rw [if_pos hroom, if_pos hroom]
  · rw [if_neg hroom, if_neg hroom]

namespace ReservedPages

theorem limited : PageStore.Limited ReservedPages.limit := by
  intro pages store
  change ReservedPages.grow pages store = _ ∨ ∃ next, ReservedPages.grow pages store = _ ∧ _
  unfold ReservedPages.grow
  split
  · rename_i next hnext
    obtain ⟨rfl, hlimit⟩ := enlarged?_eq_some hnext
    exact .inr ⟨_, rfl, rfl, hlimit, rfl, rfl⟩
  · exact .inl rfl

/-- What was reserved lies within the address space if the system only gives such ranges. -/
theorem within_of_reserve {place : Nat → Option Nat} {initial limit : Nat} {store : ReservedPages}
    (hplace : ∀ {bytes base}, place bytes = some base → base + bytes ≤ Word.bound)
    (h : reserve place initial limit = some store) :
    PageStore.Within ReservedPages.limit store := by
  obtain ⟨_, hsizes, h⟩ := Option.bind_eq_some_iff.mp h
  obtain ⟨bytes, hbytes, h⟩ := Option.bind_eq_some_iff.mp h
  obtain ⟨base, hbase, h⟩ := Option.bind_eq_some_iff.mp h
  obtain rfl := Option.some.inj h
  obtain ⟨-, rfl⟩ := Word.mul?_eq_some.mp hbytes
  exact ⟨((Option.guard_eq_some' _).mp hsizes).2, hplace hbase⟩

/-- The bytes of a reservation are a word, so its page count stays far from the largest one. -/
theorem limit_of_reserve {place : Nat → Option Nat} {initial limit : Nat} {store : ReservedPages}
    (h : reserve place initial limit = some store) :
    store.pages ≤ store.limit ∧ store.limit < Word.max := by
  obtain ⟨_, hsizes, h⟩ := Option.bind_eq_some_iff.mp h
  obtain ⟨bytes, hbytes, h⟩ := Option.bind_eq_some_iff.mp h
  obtain ⟨base, _, h⟩ := Option.bind_eq_some_iff.mp h
  obtain rfl := Option.some.inj h
  have hword := (Word.mul?_eq_some.mp hbytes).1
  simp only [linearPageSize, Word.bound, Word.max] at *
  exact ⟨((Option.guard_eq_some' _).mp hsizes).2, by omega⟩

end ReservedPages

end RegionHeap.Growth
