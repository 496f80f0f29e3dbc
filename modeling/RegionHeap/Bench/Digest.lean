import RegionHeap.Memory

/-!
# Looking at ranges of memory

A range is compared with a byte, or condensed into a 64-bit FNV-1a digest: each
byte is mixed into the digest by exclusive or, and the digest multiplied by the
prime of that width.
-/
namespace RegionHeap.Memory

/-- Whether every byte of a range has the given value. -/
def allEqual (m : Memory) (value : UInt8) : (start len : Nat) → Bool
  | _, 0 => true
  | start, len + 1 => m.byte start = value && m.allEqual value (start + 1) len

/-- Mix the bytes of a range into a digest. -/
def digestFrom (m : Memory) : (start len : Nat) → UInt64 → UInt64
  | _, 0, digest => digest
  | start, len + 1, digest =>
    m.digestFrom (start + 1) len ((digest ^^^ (m.byte start).toUInt64) * 0x100000001b3)

/-- The digest of a range. -/
def digest (m : Memory) (start len : Nat) : UInt64 :=
  m.digestFrom start len 0xcbf29ce484222325

end RegionHeap.Memory
