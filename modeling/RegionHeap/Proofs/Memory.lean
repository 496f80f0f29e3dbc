import Mathlib.Data.List.Basic
import RegionHeap.Memory

/-!
# Memories that agree

Two memories that agree on the addresses of a range read the same there, byte by
byte, as a list, and as a word. Where they do not agree, a third one can be had
that follows the one here and the other there.
-/
namespace RegionHeap.Memory

variable {m m' : Memory} {start source len : Nat}

theorem bytes_congr (h : ∀ {i}, i < len → m'.byte (start + i) = m.byte (source + i)) :
    m'.bytes start len = m.bytes source len := by
  apply List.ext_getElem
  · rw [length_bytes, length_bytes]
  · intro i hi _
    rw [length_bytes] at hi
    simpa [bytes] using h hi

theorem take_bytes (m : Memory) (start len : Nat) {count : Nat} (h : count ≤ len) :
    (m.bytes start len).take count = m.bytes start count := by
  rw [bytes, ← List.map_take, List.take_range'_of_length_ge h, bytes]

theorem getElem?_bytes (m : Memory) (start : Nat) {len i : Nat} (h : i < len) :
    (m.bytes start len)[i]? = some (m.byte (start + i)) := by
  rw [bytes, List.getElem?_map, List.getElem?_range' h, Option.map_some, Nat.one_mul]

theorem bytes_eq_replicate {value : UInt8} (h : ∀ {i}, i < len → m.byte (start + i) = value) :
    m.bytes start len = List.replicate len value := by
  apply List.ext_getElem
  · rw [length_bytes, List.length_replicate]
  · intro i hi _
    rw [length_bytes] at hi
    simpa [bytes] using h hi

theorem readWord_congr (h : ∀ {i}, i < 8 → m'.byte (start + i) = m.byte (start + i)) :
    m'.readWord start = m.readWord start := by
  apply List.foldr_ext
  intro i hi rest
  rw [h (List.mem_range.mp hi)]

/-- The bytes of a word that was read are those of the memory. -/
theorem shiftRight_readWord (m : Memory) (address : Nat) {i : Nat} (hi : i < 8) :
    (m.readWord address >>> (8 * i) % 256).toUInt8 = m.byte (address + i) := by
  have hdigit : ∀ {count start i}, i < count →
      (List.range' start count).foldr
        (fun i rest => (m.byte (address + i)).toNat + 256 * rest) 0 / 256 ^ i % 256 =
      (m.byte (address + (start + i))).toNat := by
    intro count
    induction count with
    | zero => exact fun h => absurd h (Nat.not_lt_zero _)
    | succ count ih =>
      intro start i hi
      have hbyte := (m.byte (address + start)).toNat_lt
      rw [List.range'_succ, List.foldr_cons]
      cases i with
      | zero =>
        rw [Nat.pow_zero, Nat.div_one, Nat.add_mul_mod_self_left, Nat.mod_eq_of_lt hbyte,
          Nat.add_zero]
      | succ i =>
        rw [Nat.pow_succ', ← Nat.div_div_eq_div_mul, Nat.add_mul_div_left _ _ (by decide),
          Nat.div_eq_of_lt hbyte, Nat.zero_add, ih (Nat.lt_of_succ_lt_succ hi), Nat.add_assoc,
          Nat.add_comm 1 i]
  rw [readWord, List.range_eq_range', Nat.shiftRight_eq_div_pow, Nat.pow_mul, hdigit hi,
    Nat.zero_add]
  exact UInt8.ofNat_toNat

theorem exists_end (m : Memory) : ∃ stop, ∀ address, stop ≤ address → m.byte address = 0 := by
  refine ⟨(m.chunks.keys.max?.getD 0 + 1) * 256, fun address haddress => ?_⟩
  have hnone : m.chunks[address / 256]? = none := by
    apply Std.TreeMap.getElem?_eq_none
    intro hmem
    have hle := List.le_max?_getD_of_mem (k := 0) (Std.TreeMap.mem_keys.mpr hmem)
    omega
  rw [byte, hnone]

/-- A memory may have what became of a second one wherever the two agreed, and its own bytes
elsewhere. -/
theorem exists_merge (m m' became : Memory) : ∃ merged : Memory, ∀ address,
    merged.byte address =
      if m'.byte address = m.byte address then became.byte address else m.byte address := by
  obtain ⟨stop, hstop⟩ := exists_end m
  obtain ⟨stop', hstop'⟩ := exists_end m'
  refine ⟨became.update 0 (max stop stop') fun address =>
    if m'.byte address = m.byte address then became.byte address else m.byte address, ?_⟩
  intro address
  rw [byte_update]
  split
  · rfl
  · rename_i hbeyond
    rw [hstop address (by omega), hstop' address (by omega), if_pos rfl]

end RegionHeap.Memory
