import RegionHeap.Fault

/-!
# Checked computations that return

A checked computation returns exactly if each of its parts does. The lemmas
take a computation that returned apart, and put one together whose parts are
known to return.
-/
namespace RegionHeap.Checked

variable {α β : Type} {x : Checked α} {f : α → Checked β} {b : β}

theorem bind_eq_ok : x >>= f = .ok b ↔ ∃ a, x = .ok a ∧ f a = .ok b := by
  cases x with
  | error fault => exact ⟨fun h => (nomatch h), fun ⟨_, h, _⟩ => (nomatch h)⟩
  | ok a => exact ⟨fun h => ⟨a, rfl, h⟩, fun ⟨_, ha, h⟩ => Except.ok.inj ha ▸ h⟩

@[simp] theorem ok_bind (a : α) : (Except.ok a : Checked α) >>= f = f a := rfl

@[simp] theorem pure_eq_ok (a : α) : (pure a : Checked α) = .ok a := rfl

@[simp] theorem require_eq_ok {condition : Prop} [Decidable condition] {fault : Fault} {u : Unit} :
    require condition fault = .ok u ↔ condition := by
  unfold require
  split <;> simp_all

theorem require_of {condition : Prop} [Decidable condition] (fault : Fault) (h : condition) :
    require condition fault = .ok () := if_pos h

end RegionHeap.Checked
