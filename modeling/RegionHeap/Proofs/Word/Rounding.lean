import Mathlib.Order.Bounds.Defs
import RegionHeap.Proofs.Word

/-!
# The least multiple from a number upwards

Rounding up asks for the least multiple of a power of two from a number upwards, among all
numbers and not only the words. The check is made on the sum of the number and the low bits,
which is larger than that multiple; it refuses nevertheless exactly where the multiple is no
word, because the end of the words is a multiple itself. So rounding is monotone, a rounded word
stays as it is, and rounding in two stages, the second one not finer than the first, comes to
the second one alone, also where nothing is large enough.
-/
namespace RegionHeap.Word

variable {n m unit fine coarse value align rounded : Nat}

theorem isLeast_ceiling (n : Nat) (h : 0 < unit) :
    IsLeast {multiple | unit ∣ multiple ∧ n ≤ multiple} (ceiling n unit) := by
  refine ⟨⟨Nat.dvd_mul_left unit _, le_ceiling n h⟩, fun multiple ⟨hdvd, hle⟩ => ?_⟩
  obtain ⟨count, rfl⟩ := hdvd
  have hlt := ceiling_lt n h
  rw [ceiling, Nat.mul_comm] at hlt ⊢
  exact Nat.mul_le_mul_left unit (Nat.le_of_lt_add_one (Nat.lt_of_mul_lt_mul_left
    (Nat.lt_of_lt_of_le hlt (by rw [Nat.mul_add, Nat.mul_one]; omega))))

theorem ceiling_mono (h : 0 < unit) (hle : n ≤ m) : ceiling n unit ≤ ceiling m unit := by
  obtain ⟨hdvd, hm⟩ := (isLeast_ceiling m h).1
  exact (isLeast_ceiling n h).2 ⟨hdvd, Nat.le_trans hle hm⟩

/-- A multiple of the coarse unit is one of the fine unit too. -/
theorem ceiling_le_ceiling (n : Nat) (hfine : 0 < fine) (hcoarse : 0 < coarse)
    (hdvd : fine ∣ coarse) : ceiling n fine ≤ ceiling n coarse := by
  obtain ⟨hmultiple, hle⟩ := (isLeast_ceiling n hcoarse).1
  exact (isLeast_ceiling n hfine).2 ⟨Nat.dvd_trans hdvd hmultiple, hle⟩

theorem ceiling_ceiling (n : Nat) (hfine : 0 < fine) (hcoarse : 0 < coarse)
    (hdvd : fine ∣ coarse) : ceiling (ceiling n fine) coarse = ceiling n coarse := by
  apply Nat.le_antisymm
  · have hmultiple := (isLeast_ceiling n hcoarse).1.1
    exact (isLeast_ceiling _ hcoarse).2
      ⟨hmultiple, ceiling_le_ceiling n hfine hcoarse hdvd⟩
  · exact ceiling_mono hcoarse (le_ceiling n hfine)

theorem roundUp_eq_some (h : isPowerOfTwo align) (hword : align ≤ bound) :
    roundUp value align = .ok (some rounded) ↔
      ceiling value align < bound ∧ ceiling value align = rounded := by
  rw [roundUp_eq value h hword, Except.ok.injEq, Option.ite_none_right_eq_some, Option.some.injEq]

theorem roundUp_mono {low high : Nat} (h : isPowerOfTwo align) (hword : align ≤ bound)
    (hle : low ≤ high) (hhigh : roundUp high align = .ok (some rounded)) :
    ∃ lower ≤ rounded, roundUp low align = .ok (some lower) := by
  obtain ⟨hfits, rfl⟩ := (roundUp_eq_some h hword).mp hhigh
  have hmono := ceiling_mono (pos_of_isPowerOfTwo h) hle
  exact ⟨_, hmono, (roundUp_eq_some h hword).mpr ⟨Nat.lt_of_le_of_lt hmono hfits, rfl⟩⟩

/-- Round up to one power of two, and what comes of that to another one. -/
def roundUpInStages (value first second : Nat) : Checked (Option Nat) := do
  match ← roundUp value first with
  | some rounded => roundUp rounded second
  | none => return none

/-- Where already the first stage finds no word, the second one has none either. -/
theorem roundUpInStages_eq (value : Nat) (hfine : isPowerOfTwo fine)
    (hcoarse : isPowerOfTwo coarse) (hword : coarse ≤ bound) (hle : fine ≤ coarse) :
    roundUpInStages value fine coarse = roundUp value coarse := by
  have hpos := pos_of_isPowerOfTwo hfine
  have hpos' := pos_of_isPowerOfTwo hcoarse
  have hdvd := dvd_of_isPowerOfTwo hfine hcoarse hle
  rw [roundUpInStages, roundUp_eq value hfine (Nat.le_trans hle hword)]
  by_cases hfits : ceiling value fine < bound
  · rw [if_pos hfits]
    change roundUp (ceiling value fine) coarse = _
    rw [roundUp_eq _ hcoarse hword, roundUp_eq _ hcoarse hword,
      ceiling_ceiling value hpos hpos' hdvd]
  · have hbeyond : ¬ceiling value coarse < bound := fun hlt =>
      hfits (Nat.lt_of_le_of_lt (ceiling_le_ceiling value hpos hpos' hdvd) hlt)
    rw [if_neg hfits, roundUp_eq value hcoarse hword, if_neg hbeyond]
    rfl

theorem roundUp_rounded (h : isPowerOfTwo align) (hword : align ≤ bound)
    (hrounded : roundUp value align = .ok (some rounded)) :
    roundUp rounded align = .ok (some rounded) := by
  have hstages := roundUpInStages_eq value h h hword (Nat.le_refl align)
  rw [roundUpInStages, hrounded] at hstages
  exact hstages

theorem shiftLeft_le {exponent second : Nat} (h : exponent ≤ second) :
    1 <<< exponent ≤ 1 <<< second := by
  rw [Nat.one_shiftLeft, Nat.one_shiftLeft]
  exact Nat.pow_le_pow_right Nat.two_pos h

/-- The answer of rounding up to a power of two that is a word is the least multiple from the
value upwards if this is a word, and none exactly if it is not. So a larger value has a larger
answer or none, what was rounded is its own answer, and to round in two stages, first to this
power and then to one that is not smaller, is to round to the second one at once. -/
theorem rounding_of_power {exponent : Nat} (h : exponent < 64) :
    (∀ value, ∃ least, IsLeast {multiple | 1 <<< exponent ∣ multiple ∧ value ≤ multiple} least ∧
      roundUp value (1 <<< exponent) = .ok (if least < bound then some least else none)) ∧
    (∀ low high rounded, low ≤ high → roundUp high (1 <<< exponent) = .ok (some rounded) →
      ∃ lower ≤ rounded, roundUp low (1 <<< exponent) = .ok (some lower)) ∧
    (∀ value rounded, roundUp value (1 <<< exponent) = .ok (some rounded) →
      roundUp rounded (1 <<< exponent) = .ok (some rounded)) ∧
    ∀ value second, exponent ≤ second → second < 64 →
      roundUpInStages value (1 <<< exponent) (1 <<< second) = roundUp value (1 <<< second) := by
  have hpower := isPowerOfTwo_shiftLeft exponent
  have hword : 1 <<< exponent ≤ bound := shiftLeft_le (Nat.le_of_lt h)
  refine ⟨?_, ?_, ?_, ?_⟩
  · intro value
    exact ⟨_, isLeast_ceiling value (pos_of_isPowerOfTwo hpower), roundUp_eq value hpower hword⟩
  · intro low high rounded
    exact roundUp_mono hpower hword
  · intro value rounded
    exact roundUp_rounded hpower hword
  · intro value second hle hsecond
    exact roundUpInStages_eq value hpower (isPowerOfTwo_shiftLeft second)
      (shiftLeft_le (Nat.le_of_lt hsecond)) (shiftLeft_le hle)

/-- Close to the end of the words the last multiple of sixteen is still there while pages have
none, and the two stages agree on that. -/
theorem rounding_of_power_end :
    4 < 64 ∧ roundUp (max - 4094) (1 <<< 4) = .ok (some (max - 4079)) ∧
      roundUp (max - 4079) (1 <<< 4) = .ok (some (max - 4079)) ∧
      roundUpInStages (max - 4094) (1 <<< 4) (1 <<< 12) = .ok none ∧
      (∃ lower ≤ max - 4079, roundUp 17 (1 <<< 4) = .ok (some lower)) ∧
      IsLeast {multiple | 1 <<< 4 ∣ multiple ∧ max - 4094 ≤ multiple} (max - 4079) := by
  have hexponent : 4 < 64 := by decide
  obtain ⟨hexact, hmono, hstays, hstages⟩ := rounding_of_power hexponent
  have hrounded : roundUp (max - 4094) (1 <<< 4) = .ok (some (max - 4079)) := by rfl
  obtain ⟨least, hleast, hanswer⟩ := hexact (max - 4094)
  have hsome := Except.ok.inj (hanswer.symm.trans hrounded)
  obtain ⟨-, hsame⟩ := Option.ite_none_right_eq_some.mp hsome
  obtain rfl := Option.some.inj hsame
  exact ⟨hexponent, hrounded, hstays _ _ hrounded,
    (hstages _ 12 (by decide) (by decide)).trans rfl,
    hmono 17 _ _ (by decide) hrounded, hleast⟩

end RegionHeap.Word
