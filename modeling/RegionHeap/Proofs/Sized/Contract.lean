import RegionHeap.Proofs.Sized.Dialogue
import RegionHeap.Sized.Allocator

/-!
# The contract of a sized allocator

Whoever builds on a sized allocator relies on this much of it and on nothing
else. A request for a block is refused, or it is met by an aligned block that
shares no address with the other live ones; a live block can be resized and
released under its exact description; and the bytes of live blocks are changed
only as the request says. The allocator may keep notes of its own in memory,
outside the live blocks, so its soundness is a property of the allocator, its
provider and the memory together, and lasts as long as users write into live
blocks only.

`All` of a dialogue stands for a source that may answer anything. The contract
speaks of the runs over the provider at hand instead, because an allocator has
no way to be right about memory that was granted twice.
-/
namespace RegionHeap.Sized

open Growth (Granted Provider)

namespace Block

def Has (block : Block) (address : Nat) : Prop :=
  block.base ≤ address ∧ address < block.base + block.total

/-- One of the blocks ends before the other one starts. -/
def Apart (a b : Block) : Prop := a.base + a.total ≤ b.base ∨ b.base + b.total ≤ a.base

theorem Apart.symm {a b : Block} (h : a.Apart b) : b.Apart a := Or.symm h

theorem Apart.not_has {a b : Block} {address : Nat} (h : a.Apart b) (ha : a.Has address) :
    ¬b.Has address := by
  simp only [Apart, Has] at *
  omega

end Block

variable {α ρ : Type} [Allocator α]

/-- The block `old` was taken back and the block `new` handed out, if there are
such blocks. All others are live as before, with the bytes that they had. -/
structure Exchange (old new : Option Block) (s : α) (m : Memory) (s' : α) (m' : Memory) :
    Prop where
  live : ∀ block, Allocator.Live s' block ↔
    some block = new ∨ Allocator.Live s block ∧ some block ≠ old
  bytes : ∀ {block}, Allocator.Live s block → some block ≠ old →
    ∀ {address}, block.Has address → m'.byte address = m.byte address
  aligned : ∀ {block}, some block = new → block.base % block.align = 0
  bounded : ∀ {block}, some block = new → block.base + block.total ≤ Word.bound
  apart : ∀ {block other}, some block = new → Allocator.Live s other → some other ≠ old →
    block.Apart other

theorem Exchange.refl (s : α) (m : Memory) : Exchange none none s m s m where
  live block := by simp
  bytes _ _ _ _ := rfl
  aligned := by simp
  bounded := by simp
  apart := by simp

structure Acquired (cleared : Bool) (total align : Nat) (s : α) (m : Memory)
    (outcome : Outcome α) : Prop where
  exchange : Exchange none (outcome.base.map (⟨·, total, align⟩)) s m outcome.state outcome.memory
  zeroed : cleared → ∀ {base}, outcome.base = some base →
    ∀ {i}, i < total → outcome.memory.byte (base + i) = 0

/-- The outcome of a request to resize a block. A refusal leaves the block alone. -/
structure Resized (block : Block) (total : Nat) (s : α) (m : Memory) (outcome : Outcome α) :
    Prop where
  exchange : Exchange (outcome.base.map fun _ => block)
    (outcome.base.map (⟨·, total, block.align⟩)) s m outcome.state outcome.memory
  kept : ∀ {base}, outcome.base = some base → ∀ {i}, i < min block.total total →
    outcome.memory.byte (base + i) = m.byte (block.base + i)

variable [Provider ρ]

/-- What an allocator over a provider promises in its sound states. -/
structure Contract (Sound : α → ρ → Memory → Prop) : Prop where
  /-- Nothing is live at first. -/
  empty : ∀ block, ¬Allocator.Live (Allocator.empty : α) block
  acquire : ∀ {s provider m} (cleared : Bool) {total align : Nat}, Sound s provider m →
    total < Word.bound → Word.isPowerOfTwo align →
    (Allocator.acquire cleared total align s m).Asks (· < Word.bound) ∧
    ∀ {level reply}, (Allocator.acquire cleared total align s m).run level provider = .ok reply →
      Acquired cleared total align s m reply.answer ∧
      Sound reply.answer.state reply.state reply.answer.memory
  resize : ∀ {s provider m block} {total : Nat}, Sound s provider m →
    Allocator.Live s block → total < Word.bound →
    ∃ dialogue, Allocator.resize block total s m = .ok dialogue ∧
      dialogue.Asks (· < Word.bound) ∧
      ∀ {level reply}, dialogue.run level provider = .ok reply →
        Resized block total s m reply.answer ∧
        Sound reply.answer.state reply.state reply.answer.memory
  release : ∀ {s provider m block}, Sound s provider m → Allocator.Live s block →
    ∃ s' m', Allocator.release block s m = .ok (s', m') ∧
      Exchange (some block) none s m s' m' ∧ Sound s' provider m'
  /-- What users write into live blocks does not matter to the allocator. -/
  frame : ∀ {s provider m m'}, Sound s provider m →
    (∀ address, (∀ block, Allocator.Live s block → ¬block.Has address) →
      m'.byte address = m.byte address) →
    Sound s provider m'

/-- An allocator is firm in its sound states if a refusal leaves it and the memory as they were. -/
structure Firm (Sound : α → ρ → Memory → Prop) : Prop where
  acquire : ∀ {s provider m cleared total align level reply}, Sound s provider m →
    Word.isPowerOfTwo align →
    (Allocator.acquire cleared total align s m).run level provider = .ok reply →
    reply.answer.base = none → reply.answer.state = s ∧ reply.answer.memory = m
  resize : ∀ {s provider m block total dialogue level reply}, Sound s provider m →
    Allocator.Live s block → Allocator.resize block total s m = .ok dialogue →
    dialogue.run level provider = .ok reply →
    reply.answer.base = none → reply.answer.state = s ∧ reply.answer.memory = m

/-- The allocator and its provider are not short of memory: no call for at most `n` bytes is
refused. -/
structure Plenty (n : Nat) (level : Trace.Level) (s : α) (provider : ρ) (m : Memory) : Prop where
  acquire : ∀ {cleared total align reply}, Word.isPowerOfTwo align → align ≤ total → total ≤ n →
    (Allocator.acquire cleared total align s m).run level provider = .ok reply →
    reply.answer.base ≠ none
  resize : ∀ {block total dialogue reply}, Allocator.Live s block → block.align ≤ total →
    total ≤ n → Allocator.resize block total s m = .ok dialogue →
    dialogue.run level provider = .ok reply → reply.answer.base ≠ none

end RegionHeap.Sized
