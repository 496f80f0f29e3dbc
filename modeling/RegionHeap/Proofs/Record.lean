import Std.Data.TreeMap

/-!
# Records by address and by number

What a record says of an address after an entry was made or struck out, and
what a vector holds at a number after another value was put there.
-/
namespace RegionHeap.Record

variable {β : Type} {record : Std.TreeMap Nat β} {address other : Nat} {entry : β}

theorem getElem?_insert :
    (record.insert address entry)[other]? =
      if address = other then some entry else record[other]? := by
  rw [Std.TreeMap.getElem?_insert]
  simp only [Nat.compare_eq_eq]

theorem getElem?_erase :
    (record.erase address)[other]? = if address = other then none else record[other]? := by
  rw [Std.TreeMap.getElem?_erase]
  simp only [Nat.compare_eq_eq]

theorem mem_iff : address ∈ record ↔ ∃ entry, record[address]? = some entry := by
  rw [Std.TreeMap.mem_iff_isSome_getElem?, Option.isSome_iff_exists]

/-- The record consists of these entries, one for each address. -/
structure Lists (record : Std.TreeMap Nat β) (entries : List (Nat × β)) : Prop where
  distinct : (entries.map Prod.fst).Nodup
  iff : ∀ {address entry}, record[address]? = some entry ↔ (address, entry) ∈ entries

namespace Lists

variable {entries others : List (Nat × β)}

theorem nil : Lists (∅ : Std.TreeMap Nat β) [] := ⟨.nil, by simp⟩

theorem perm (h : Lists record entries) (hperm : entries.Perm others) : Lists record others :=
  ⟨(hperm.map _).nodup h.distinct, h.iff.trans hperm.mem_iff⟩

theorem head (h : Lists record ((address, entry) :: entries)) : record[address]? = some entry :=
  h.iff.mpr List.mem_cons_self

theorem none_of_head (h : Lists record ((address, entry) :: entries)) {other : β} :
    (address, other) ∉ entries := fun hmem =>
  (List.nodup_cons.mp h.distinct).1 (List.mem_map.mpr ⟨_, hmem, rfl⟩)

theorem insert (h : Lists record entries) (hnew : record[address]? = none) :
    Lists (record.insert address entry) ((address, entry) :: entries) where
  distinct := by
    refine List.nodup_cons.mpr ⟨fun hmem => ?_, h.distinct⟩
    obtain ⟨⟨_, value⟩, hvalue, rfl⟩ := List.mem_map.mp hmem
    cases hnew.symm.trans (h.iff.mpr hvalue)
  iff := by
    intro other value
    rw [getElem?_insert, List.mem_cons, Prod.mk.injEq]
    by_cases heq : address = other
    · subst heq
      have hnone : (address, value) ∉ entries := fun hmem => by
        cases hnew.symm.trans (h.iff.mpr hmem)
      simp [hnone, eq_comm]
    · simp [heq, Ne.symm heq, h.iff]

theorem erase (h : Lists record ((address, entry) :: entries)) :
    Lists (record.erase address) entries where
  distinct := (List.nodup_cons.mp h.distinct).2
  iff := by
    intro other value
    rw [getElem?_erase]
    by_cases heq : address = other
    · subst heq
      simp [h.none_of_head]
    · simp [heq, Ne.symm heq, h.iff]

theorem eq_nil_iff (h : Lists record entries) : entries = [] ↔ ∀ address, address ∉ record := by
  constructor
  · intro hnil address hmem
    obtain ⟨entry, hentry⟩ := mem_iff.mp hmem
    rw [h.iff, hnil] at hentry
    cases hentry
  · intro hnone
    rw [List.eq_nil_iff_forall_not_mem]
    intro ⟨address, entry⟩ hmem
    exact hnone address (mem_iff.mpr ⟨entry, h.iff.mpr hmem⟩)

/-- Two lists of one record have the same entries, so none is left over. -/
theorem eq_nil_of_append (h : Lists record entries) (hmore : Lists record (entries ++ others)) :
    others = [] := by
  rw [List.eq_nil_iff_forall_not_mem]
  intro ⟨address, entry⟩ hmem
  have hentry := h.iff.mp (hmore.iff.mpr (List.mem_append_right _ hmem))
  have hdistinct := hmore.distinct
  rw [List.map_append, List.nodup_append] at hdistinct
  exact hdistinct.2.2 address (List.mem_map.mpr ⟨_, hentry, rfl⟩) address
    (List.mem_map.mpr ⟨_, hmem, rfl⟩) rfl

end Lists

section vector

variable {n : Nat} {values : Vector β n} {i j : Fin n}

theorem get_set {value : β} :
    (values.set i value i.isLt).get j = if i = j then value else values.get j := by
  simp only [Fin.ext_iff]
  exact Vector.getElem_set i.isLt j.isLt

theorem set_get : values.set i (values.get i) i.isLt = values := Vector.set_getElem_self i.isLt

theorem get_replicate (value : β) : (Vector.replicate n value).get i = value :=
  Vector.getElem_replicate i.isLt

end vector

end RegionHeap.Record
