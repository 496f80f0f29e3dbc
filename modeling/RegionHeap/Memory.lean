import Std.Data.TreeMap
import RegionHeap.Word

/-!
# Byte memory

A memory gives a byte to every address; bytes that nobody wrote are zero here,
and no statement of the library relies on that. It is held in chunks so that a
sparse memory stays small. `byte` is the view of a memory, `update` is the one
way to change it, and `byte_update` says all that a change does: the given
range takes the given bytes and every other address keeps its own. Words are
eight bytes, the lowest first.
-/
namespace RegionHeap

/-- The bytes of 256 neighbouring addresses. -/
abbrev Chunk := Vector UInt8 256

/-- The byte of a chunk that an address refers to. -/
def Chunk.at (chunk : Chunk) (address : Nat) : UInt8 :=
  have : address % 256 < 256 := Nat.mod_lt _ (by decide)
  chunk[address % 256]

structure Memory where
  chunks : Std.TreeMap Nat Chunk

namespace Memory

def empty : Memory := ⟨∅⟩

/-- The byte at an address. -/
def byte (m : Memory) (address : Nat) : UInt8 :=
  match m.chunks[address / 256]? with
  | some chunk => Chunk.at chunk address
  | none => 0

/-- Chunk `k` with the addresses of the range replaced by `f`. -/
def chunkAfter (m : Memory) (start len : Nat) (f : Nat → UInt8) (k : Nat) : Chunk :=
  Vector.ofFn fun i =>
    let address := k * 256 + i.val
    if start ≤ address ∧ address < start + len then f address else m.byte address

/-- Replace the range in `count` chunks from chunk `k` on. -/
def updateChunks (start len : Nat) (f : Nat → UInt8) : Nat → Nat → Memory → Memory
  | _, 0, m => m
  | k, count + 1, m =>
    let chunk := m.chunkAfter start len f k
    updateChunks start len f (k + 1) count ⟨m.chunks.insert k chunk⟩

/-- The number of chunks that a range touches. -/
def touched (start len : Nat) : Nat :=
  if len = 0 then 0 else (start + len - 1) / 256 - start / 256 + 1

/-- Give the addresses in `[start, start + len)` the bytes that `f` says. -/
def update (m : Memory) (start len : Nat) (f : Nat → UInt8) : Memory :=
  updateChunks start len f (start / 256) (touched start len) m

def fill (m : Memory) (start len : Nat) (value : UInt8) : Memory :=
  m.update start len fun _ => value

/-- Copy `len` bytes from `source` to `target`; all are read before any is written. -/
def copy (m : Memory) (target source len : Nat) : Memory :=
  m.update target len fun address => m.byte (source + (address - target))

/-- The bytes of a range, in order. -/
def bytes (m : Memory) (start len : Nat) : List UInt8 :=
  (List.range' start len).map m.byte

/-- The word whose bytes start at an address, the lowest byte first. -/
def readWord (m : Memory) (address : Nat) : Nat :=
  (List.range 8).foldr (fun i rest => (m.byte (address + i)).toNat + 256 * rest) 0

def writeWord (m : Memory) (address word : Nat) : Memory :=
  m.update address 8 fun a => (word >>> (8 * (a - address)) % 256).toUInt8

theorem byte_insert (m : Memory) (k : Nat) (chunk : Chunk) (a : Nat) :
    byte ⟨m.chunks.insert k chunk⟩ a =
      if a / 256 = k then Chunk.at chunk a else m.byte a := by
  unfold byte
  rw [Std.TreeMap.getElem?_insert]
  by_cases h : a / 256 = k
  · simp [h]
  · have : compare k (a / 256) ≠ .eq := fun e => h (Nat.compare_eq_eq.mp e).symm
    simp [h, this]

theorem byte_updateChunks (start len : Nat) (f : Nat → UInt8) (count k : Nat) (m : Memory)
    (a : Nat) :
    (updateChunks start len f k count m).byte a =
      if (k ≤ a / 256 ∧ a / 256 < k + count) ∧ start ≤ a ∧ a < start + len then f a
      else m.byte a := by
  induction count generalizing k m with
  | zero =>
    rw [if_neg (by omega)]
    rfl
  | succ count ih =>
    rw [updateChunks, ih, byte_insert]
    have hsplit : a / 256 * 256 + a % 256 = a := by omega
    by_cases hk : a / 256 = k
    · subst hk
      rw [if_neg (by omega), if_pos rfl]
      simp only [Chunk.at, chunkAfter, Vector.getElem_ofFn, hsplit]
      by_cases hr : start ≤ a ∧ a < start + len
      · rw [if_pos hr, if_pos ⟨by omega, hr⟩]
      · rw [if_neg hr, if_neg (fun h => hr h.2)]
    · rw [if_neg hk]
      by_cases hr : (k ≤ a / 256 ∧ a / 256 < k + (count + 1)) ∧ start ≤ a ∧ a < start + len
      · rw [if_pos hr, if_pos ⟨by omega, hr.2⟩]
      · rw [if_neg hr, if_neg (fun h => hr ⟨by omega, h.2⟩)]

/-- A change reaches its range and nothing else. -/
theorem byte_update (m : Memory) (start len : Nat) (f : Nat → UInt8) (a : Nat) :
    (m.update start len f).byte a =
      if start ≤ a ∧ a < start + len then f a else m.byte a := by
  rw [update, byte_updateChunks]
  by_cases hr : start ≤ a ∧ a < start + len
  · have : start / 256 ≤ a / 256 ∧ a / 256 < start / 256 + touched start len := by
      rw [touched, if_neg (by omega)]
      omega
    rw [if_pos hr, if_pos ⟨this, hr⟩]
  · rw [if_neg hr, if_neg (fun h => hr h.2)]

theorem byte_fill (m : Memory) (start len : Nat) (value : UInt8) (a : Nat) :
    (m.fill start len value).byte a =
      if start ≤ a ∧ a < start + len then value else m.byte a :=
  byte_update ..

theorem byte_copy (m : Memory) (target source len a : Nat) :
    (m.copy target source len).byte a =
      if target ≤ a ∧ a < target + len then m.byte (source + (a - target)) else m.byte a :=
  byte_update ..

theorem byte_writeWord (m : Memory) (address word a : Nat) :
    (m.writeWord address word).byte a =
      if address ≤ a ∧ a < address + 8 then (word >>> (8 * (a - address)) % 256).toUInt8
      else m.byte a :=
  byte_update ..

theorem readWord_writeWord_of_disjoint (m : Memory) {address other : Nat} (word : Nat)
    (h : other + 8 ≤ address ∨ address + 8 ≤ other) :
    (m.writeWord address word).readWord other = m.readWord other := by
  simp only [readWord, List.range, List.range.loop, List.foldr, byte_writeWord]
  repeat rw [if_neg (by omega)]

theorem readWord_writeWord (m : Memory) (address : Nat) {word : Nat} (h : word < Word.bound) :
    (m.writeWord address word).readWord address = word := by
  simp only [readWord, List.range, List.range.loop, List.foldr, byte_writeWord]
  repeat rw [if_pos (by omega)]
  simp only [Nat.add_sub_cancel_left, UInt8.toNat_ofNat', Nat.toUInt8, Nat.mod_mod]
  simp only [Word.bound] at h
  omega

theorem length_bytes (m : Memory) (start len : Nat) : (m.bytes start len).length = len := by
  simp [bytes]

end Memory

end RegionHeap
