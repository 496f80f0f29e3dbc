import RegionHeap.Host.Allocator

/-!
# The contract of a host allocator

What the host says about its allocator, and nothing else. A request for a block
is refused, or it is met by a block that shares no address with the live ones; a
refusal changes no live block. Elements whose number of bytes is no word are
refused, and so are alignments that are no power of two or no multiple of an
address's size. A live block that is resized is replaced by one that keeps what
both have room for, except that the size zero takes it back. Whether there is
memory for a block is no part of the contract.
-/
namespace RegionHeap.HostAllocator

variable {η : Type} [HostAllocator η]

/-- No byte belongs to two live blocks. -/
def Apart (s : η) : Prop :=
  ∀ {a b sizeA sizeB : Nat}, Live s a sizeA → Live s b sizeB → a ≠ b →
    ∀ {i j : Nat}, i < sizeA → j < sizeB → a + i ≠ b + j

/-- The block at `old` was taken back and the block `new` handed out, if there are such
blocks. All others are live as before, with the bytes that they had. -/
structure Exchange (old : Option Nat) (new : Option (Nat × Nat)) (s : η) (m : Memory) (s' : η)
    (m' : Memory) : Prop where
  live : ∀ base size, Live s' base size ↔
    some (base, size) = new ∨ Live s base size ∧ some base ≠ old
  fresh : ∀ {base size}, some (base, size) = new → some base = old ∨ ∀ other, ¬Live s base other
  bytes : ∀ {base size}, Live s base size → some base ≠ old →
    ∀ {i}, i < size → m'.byte (base + i) = m.byte (base + i)

theorem Exchange.refl (s : η) (m : Memory) : Exchange none none s m s m where
  live base size := by simp
  fresh := by simp
  bytes _ _ _ _ := rfl

/-- What is written into the new block is not written into the others. -/
theorem Exchange.update {old : Option Nat} {base size len : Nat} {s s' : η} {m m' : Memory}
    (h : Exchange old (some (base, size)) s m s' m') (apart : Apart s') (hlen : len ≤ size)
    (f : Nat → UInt8) : Exchange old (some (base, size)) s m s' (m'.update base len f) where
  live := h.live
  fresh := h.fresh
  bytes := by
    intro other otherSize hlive hother i hi
    have hne : other ≠ base := by
      intro heq
      rcases h.fresh rfl with hold | hfresh
      · exact hother (heq ▸ hold)
      · exact hfresh otherSize (heq ▸ hlive)
    have houtside : ¬(base ≤ other + i ∧ other + i < base + len) := fun ⟨hstart, hstop⟩ =>
      apart ((h.live ..).mpr (.inr ⟨hlive, hother⟩)) ((h.live ..).mpr (.inl rfl)) hne hi
        (show other + i - base < size by omega) (by omega)
    exact (Memory.byte_update ..).trans ((if_neg houtside).trans (h.bytes hlive hother hi))

structure Obtained (Sound : η → Prop) (align size : Nat) (s : η) (m : Memory)
    (outcome : Outcome η) : Prop where
  sound : Sound outcome.state
  exchange : Exchange none (outcome.base.map (·, size)) s m outcome.state outcome.memory
  aligned : ∀ {base}, outcome.base = some base → base % align = 0

theorem Obtained.clear {Sound : η → Prop} {align size base : Nat} {s : η} {m : Memory}
    {outcome : Outcome η} (h : Obtained Sound align size s m outcome)
    (apart : Apart outcome.state) (hbase : outcome.base = some base) :
    Obtained Sound align size s m { outcome with memory := outcome.memory.fill base size 0 } ∧
      ∀ {i}, i < size → (outcome.memory.fill base size 0).byte (base + i) = 0 := by
  have hexchange := h.exchange
  rw [hbase] at hexchange
  refine ⟨⟨h.sound, ?_, h.aligned⟩, fun hi => ?_⟩
  · dsimp only
    rw [hbase]
    exact hexchange.update apart (Nat.le_refl _) _
  · exact (Memory.byte_fill ..).trans (if_pos ⟨by omega, by omega⟩)

/-- The outcome of a request to resize a block. A refusal leaves the block alone. -/
structure Resized (Sound : η → Prop) (old oldSize size : Nat) (s : η) (m : Memory)
    (outcome : Outcome η) : Prop where
  sound : Sound outcome.state
  exchange : Exchange (outcome.base.map fun _ => old) (outcome.base.map (·, size)) s m
    outcome.state outcome.memory
  aligned : ∀ {base}, outcome.base = some base → base % Word.minAlign = 0
  kept : ∀ {base}, outcome.base = some base → ∀ {i}, i < min oldSize size →
    outcome.memory.byte (base + i) = m.byte (old + i)

/-- What a host allocator promises in its sound states. -/
structure Contract (Sound : η → Prop) : Prop where
  /-- Nothing is live at first. -/
  empty : Sound empty ∧ ∀ base size, ¬Live (empty : η) base size
  size : ∀ {s base a b}, Sound s → Live s base a → Live s base b → a = b
  apart : ∀ {s}, Sound s → Apart s
  acquire : ∀ {s m size}, Sound s → size < Word.bound →
    Obtained Sound Word.minAlign size s m (acquire size s m)
  acquireAligned : ∀ {s m align size}, Sound s → align < Word.bound → size < Word.bound →
    Obtained Sound align size s m (acquireAligned align size s m) ∧
    (¬(Word.isPowerOfTwo align ∧ align % addressSize = 0) →
      (acquireAligned align size s m).base = none)
  acquireZeroed : ∀ {s m count size}, Sound s → count < Word.bound → size < Word.bound →
    Obtained Sound Word.minAlign (count * size) s m (acquireZeroed count size s m) ∧
    ∀ {base}, (acquireZeroed count size s m).base = some base → count * size < Word.bound ∧
      ∀ {i}, i < count * size → (acquireZeroed count size s m).memory.byte (base + i) = 0
  resizeNothing : ∀ {s : η} {m size}, resize none size s m = .ok (HostAllocator.acquire size s m)
  resize : ∀ {s m old oldSize size}, Sound s → Live s old oldSize → 0 < size →
    size < Word.bound → ∃ outcome, resize (some old) size s m = .ok outcome ∧
      Resized Sound old oldSize size s m outcome
  resizeAway : ∀ {s m old oldSize}, Sound s → Live s old oldSize →
    ∃ s' m', HostAllocator.resize (some old) 0 s m = .ok ⟨none, s', m'⟩ ∧ Sound s' ∧
      Exchange (some old) none s m s' m'
  releaseNothing : ∀ {s : η} {m}, release none s m = .ok (s, m)
  release : ∀ {s m old oldSize}, Sound s → Live s old oldSize →
    ∃ s' m', release (some old) s m = .ok (s', m') ∧ Sound s' ∧
      Exchange (some old) none s m s' m'

/-- The host is not short of memory: of the calls for at most `n` bytes it refuses none but
those that it always refuses. A block of no bytes is a block like any other. -/
structure Plenty (n : Nat) (s : η) (m : Memory) : Prop where
  acquire : ∀ {size}, size ≤ n → (acquire size s m).base ≠ none
  acquireAligned : ∀ {align size}, Word.isPowerOfTwo align ∧ align % addressSize = 0 →
    align + size ≤ n → (acquireAligned align size s m).base ≠ none
  acquireZeroed : ∀ {count size}, count * size < Word.bound → count * size ≤ n →
    (acquireZeroed count size s m).base ≠ none
  resize : ∀ {old oldSize size outcome}, Live s old oldSize → 0 < size → size ≤ n →
    resize (some old) size s m = .ok outcome → outcome.base ≠ none

end RegionHeap.HostAllocator
