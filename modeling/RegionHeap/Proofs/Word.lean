import RegionHeap.Word

/-!
# Rounding and powers of two

What the allocators need of machine words: of two powers of two the smaller
divides the larger, a ceiling is the multiple that lies less than one unit
above, and rounding a word up to a power of two gives exactly the ceiling, or
nothing if the ceiling is no word.
-/
namespace RegionHeap.Word

variable {a b n unit value align : Nat}

theorem isPowerOfTwo_iff : isPowerOfTwo n ↔ ∃ k, n = 1 <<< k := by
  simp only [isPowerOfTwo, beq_iff_eq]
  constructor
  · intro h
    exact ⟨n.log2, h⟩
  · intro ⟨k, h⟩
    have hlog : n.log2 = k := by rw [h, Nat.one_shiftLeft, Nat.log2_two_pow]
    rw [hlog, h]

theorem isPowerOfTwo_shiftLeft (k : Nat) : isPowerOfTwo (1 <<< k) := isPowerOfTwo_iff.mpr ⟨k, rfl⟩

theorem pos_of_isPowerOfTwo (h : isPowerOfTwo n) : 0 < n := by
  obtain ⟨k, rfl⟩ := isPowerOfTwo_iff.mp h
  rw [Nat.one_shiftLeft]
  exact Nat.two_pow_pos k

theorem dvd_of_isPowerOfTwo (ha : isPowerOfTwo a) (hb : isPowerOfTwo b) (h : a ≤ b) : a ∣ b := by
  obtain ⟨i, rfl⟩ := isPowerOfTwo_iff.mp ha
  obtain ⟨j, rfl⟩ := isPowerOfTwo_iff.mp hb
  rw [Nat.one_shiftLeft, Nat.one_shiftLeft] at *
  exact Nat.pow_dvd_pow 2 ((Nat.pow_le_pow_iff_right (by decide)).mp h)

theorem dvd_max (ha : isPowerOfTwo a) (hb : isPowerOfTwo b) : a ∣ Max.max a b := by
  rcases Nat.le_total a b with hle | hle
  · rw [Nat.max_eq_right hle]
    exact dvd_of_isPowerOfTwo ha hb hle
  · exact (Nat.max_eq_left hle).symm ▸ Nat.dvd_refl a

theorem le_ceiling (n : Nat) (h : 0 < unit) : n ≤ ceiling n unit := by
  have hmod := Nat.mod_lt (n + unit - 1) h
  have hdiv := Nat.div_add_mod (n + unit - 1) unit
  rw [Nat.mul_comm] at hdiv
  simp only [ceiling]
  omega

theorem ceiling_lt (n : Nat) (h : 0 < unit) : ceiling n unit < n + unit := by
  have hle := Nat.div_mul_le_self (n + unit - 1) unit
  simp only [ceiling]
  omega

theorem ceiling_mod (n unit : Nat) : ceiling n unit % unit = 0 := Nat.mul_mod_left _ _

/-- Rounding to a power of two breaks no obligation: it adds the low bits and clears them. -/
theorem roundUp_of_isPowerOfTwo (value : Nat) (h : isPowerOfTwo align) :
    roundUp value align =
      .ok ((add? value (align - 1)).map fun sum => sum &&& (max - (align - 1))) := by
  have hsub : sub align 1 = .ok (align - 1) := if_pos (pos_of_isPowerOfTwo h)
  simp only [roundUp, Checked.require, h, hsub, if_true]
  rfl

/-- Clearing the low bits of a word rounds it down to a multiple of a power of two. -/
theorem clear_low_bits {k : Nat} (hk : k ≤ 64) (hn : n < bound) :
    n &&& (max - (1 <<< k - 1)) = n / 1 <<< k * 1 <<< k := by
  have hmask : max - (1 <<< k - 1) = (2 ^ (64 - k) - 1) <<< k := by
    have hsplit : 2 ^ (64 - k) * 2 ^ k = 2 ^ 64 := by
      rw [← Nat.pow_add]
      congr 1
      omega
    have hpos := Nat.two_pow_pos k
    simp only [max, bound, Nat.shiftLeft_eq, Nat.one_mul, Nat.sub_mul, hsplit]
    omega
  rw [hmask, Nat.one_shiftLeft, ← Nat.shiftRight_eq_div_pow, ← Nat.shiftLeft_eq]
  apply Nat.eq_of_testBit_eq
  intro i
  simp only [Nat.testBit_and, Nat.testBit_shiftLeft, Nat.testBit_two_pow_sub_one,
    Nat.testBit_shiftRight]
  by_cases hlow : k ≤ i
  · by_cases hhigh : i < 64
    · simp [hlow, Nat.add_sub_cancel' hlow, show i - k < 64 - k by omega]
    · have hbound : bound ≤ 2 ^ i :=
        Nat.pow_le_pow_right Nat.two_pos (Nat.le_of_not_lt hhigh)
      have hzero : n.testBit i = false := Nat.testBit_lt_two_pow (Nat.lt_of_lt_of_le hn hbound)
      simp [hzero, Nat.add_sub_cancel' hlow]
  · simp [hlow]

theorem dvd_bound (h : isPowerOfTwo align) (hword : align ≤ bound) : align ∣ bound :=
  dvd_of_isPowerOfTwo h (isPowerOfTwo_shiftLeft 64) hword

theorem roundUp_eq (value : Nat) (h : isPowerOfTwo align) (hword : align ≤ bound) :
    roundUp value align =
      .ok (if ceiling value align < bound then some (ceiling value align) else none) := by
  have hpos := pos_of_isPowerOfTwo h
  have hsum : value + (align - 1) = value + align - 1 := by omega
  have hle := Nat.div_mul_le_self (value + align - 1) align
  rw [roundUp_of_isPowerOfTwo value h, add?, hsum]
  by_cases hfits : value + align - 1 < bound
  · obtain ⟨k, rfl⟩ := isPowerOfTwo_iff.mp h
    have hk : k ≤ 64 := by
      rw [Nat.one_shiftLeft] at hword
      exact (Nat.pow_le_pow_iff_right (by decide)).mp hword
    have hceiling : ceiling value (1 <<< k) < bound := by
      rw [ceiling]
      omega
    rw [if_pos hfits, if_pos hceiling, Option.map_some, clear_low_bits hk hfits, ceiling]
  · have hceiling : bound ≤ ceiling value align := by
      obtain ⟨q, hq⟩ := dvd_bound h hword
      rw [ceiling, hq, Nat.mul_comm align]
      apply Nat.mul_le_mul_right
      rw [Nat.le_div_iff_mul_le hpos, Nat.mul_comm, ← hq]
      omega
    rw [if_neg hfits, if_neg (by omega), Option.map_none]

theorem add?_eq_some : add? a b = some n ↔ a + b < bound ∧ a + b = n := by
  rw [add?, Option.ite_none_right_eq_some, Option.some.injEq]

theorem mul?_eq_some : mul? a b = some n ↔ a * b < bound ∧ a * b = n := by
  rw [mul?, Option.ite_none_right_eq_some, Option.some.injEq]

/-- Sums that saturate do not depend on where they saturate. -/
theorem addSat_mulSat {count bytes : Nat} (h : count * unit = n * unit + bytes) :
    addSat (mulSat n unit) bytes = mulSat count unit := by
  simp only [addSat, mulSat]
  omega

theorem signed_of_le (h : n ≤ signedMax) : signed n = n := if_pos h

end RegionHeap.Word
