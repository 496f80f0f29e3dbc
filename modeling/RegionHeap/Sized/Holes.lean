import RegionHeap.Sized.Span

/-!
# Holes

Holes are the free spans between cells, the newest first. The tightest hole for
a length is a shortest one that has room for it. Of equally short ones the
newest is taken while they are small, and the oldest otherwise: small holes are
stacked by their length, the others wait in line.
-/
namespace RegionHeap.Sized

abbrev Holes := List Span

namespace Holes

/-- Spans of fewer bytes than this are small. -/
def smallBound : Nat := 256

/-- Whether a hole goes before an older one, when there is room in both. -/
def goesBefore (hole older : Span) : Bool :=
  hole.length < older.length || (hole.length == older.length && hole.length < smallBound)

/-- The hole that is used for `length` bytes, if any has room for them. -/
def tightest? (length : Nat) : Holes → Option Span
  | [] => none
  | hole :: older =>
    match tightest? length older with
    | none => if length ≤ hole.length then some hole else none
    | some best => if length ≤ hole.length ∧ goesBefore hole best then some hole else some best

variable {holes : Holes} {hole : Span} {length : Nat}

theorem tightest?_eq_none_iff :
    tightest? length holes = none ↔ ∀ hole ∈ holes, hole.length < length := by
  induction holes with
  | nil => simp [tightest?]
  | cons first older ih =>
    unfold tightest?
    split <;> grind

/-- The tightest hole is a hole, has room, and no hole with room is shorter. -/
theorem tightest?_eq_some (h : tightest? length holes = some hole) :
    hole ∈ holes ∧ length ≤ hole.length ∧
      ∀ other ∈ holes, length ≤ other.length → hole.length ≤ other.length := by
  induction holes generalizing hole with
  | nil => simp [tightest?] at h
  | cons first older ih =>
    unfold tightest? at h
    cases hbest : tightest? length older with
    | none =>
      have hnone := tightest?_eq_none_iff.mp hbest
      rw [hbest] at h
      grind
    | some best =>
      obtain ⟨hmem, hroom, hleast⟩ := ih hbest
      rw [hbest] at h
      simp only [goesBefore] at h
      grind

end Holes

end RegionHeap.Sized
