import RegionHeap.Proofs.Memory
import RegionHeap.Proofs.Sized.TopSpace

/-!
# What others have in their blocks

While one party uses an allocator, others may be writing into the blocks that
they hold. Two memories that differ in such bytes only are told apart by no
promise of the contract: what the allocator does on one of them it might have
done on the other, and where the memories agreed they agree afterwards. A
discreet allocator does not look into the blocks of others at all, so it does
the same on both.
-/
namespace RegionHeap.Sized

open Growth (Provider)

variable {α ρ : Type} [Allocator α] {Sound : α → ρ → Memory → Prop} {s s' : α}
  {provider : ρ} {m m' after after' : Memory} {block other : Block} {subject old new : Option Block}
  {cleared : Bool} {total align address : Nat} {level : Trace.Level}

/-- The second memory is the first one but for bytes of live blocks that are not asked about. -/
def Beside (s : α) (subject : Option Block) (m m' : Memory) : Prop :=
  ∀ address, m'.byte address = m.byte address ∨
    ∃ other, Allocator.Live s other ∧ other.Has address ∧ ∀ block ∈ subject, block.Apart other

/-- Two memories agree wherever two earlier ones did. -/
def Alike (m m' after after' : Memory) : Prop :=
  ∀ address, m'.byte address = m.byte address → after'.byte address = after.byte address

/-- The reply as it would be in another memory. -/
def inMemory (reply : Reply (Outcome α) ρ) (m : Memory) : Reply (Outcome α) ρ :=
  { reply with answer := { reply.answer with memory := m } }

/-- An allocator is discreet if what it does does not depend on the bytes of live blocks
that it is not asked about. -/
structure Discreet [Provider ρ] (Sound : α → ρ → Memory → Prop) : Prop where
  acquire : ∀ {s provider m m' cleared total align level reply}, Sound s provider m →
    total < Word.bound → Word.isPowerOfTwo align → Beside s none m m' →
    (Allocator.acquire cleared total align s m').run level provider = .ok reply →
    ∃ after, (Allocator.acquire cleared total align s m).run level provider =
      .ok (inMemory reply after) ∧ Alike m m' after reply.answer.memory
  resize : ∀ {s provider m m' block total level dialogue reply}, Sound s provider m →
    Allocator.Live s block → total < Word.bound → Beside s (some block) m m' →
    Allocator.resize block total s m' = .ok dialogue → dialogue.run level provider = .ok reply →
    ∃ same after, Allocator.resize block total s m = .ok same ∧
      same.run level provider = .ok (inMemory reply after) ∧
      Alike m m' after reply.answer.memory
  release : ∀ {s provider m m' block s' after'}, Sound s provider m →
    Allocator.Live s block → Beside s (some block) m m' →
    Allocator.release block s m' = .ok (s', after') →
    ∃ after, Allocator.release block s m = .ok (s', after) ∧ Alike m m' after after'

theorem Block.has_add {i : Nat} (hi : i < block.total) : block.Has (block.base + i) :=
  ⟨Nat.le_add_right _ _, Nat.add_lt_add_left hi _⟩

theorem Block.Apart.ne (h : block.Apart other) (hhas : other.Has address) : block ≠ other := by
  rintro rfl
  exact h.not_has hhas hhas

namespace Beside

theorem eq_of_apart (h : Beside s subject m m') (hhas : block.Has address)
    (hapart : ∀ other, Allocator.Live s other → other.Has address →
      (∀ old ∈ subject, old.Apart other) → block.Apart other) :
    m'.byte address = m.byte address := by
  rcases h address with hsame | ⟨other, hlive, hother, hsubject⟩
  · exact hsame
  · exact absurd hother ((hapart other hlive hother hsubject).not_has hhas)

theorem eq_of_subject (h : Beside s (some block) m m') (hhas : block.Has address) :
    m'.byte address = m.byte address :=
  h.eq_of_apart hhas fun _ _ _ hsubject => hsubject block rfl

end Beside

section merged

variable {joint : Memory} (hjoint : ∀ address, joint.byte address =
    if m'.byte address = m.byte address then after'.byte address else m.byte address)

include hjoint

theorem Alike.merged : Alike m m' joint after' := by
  intro address hsame
  rw [hjoint, if_pos hsame]

theorem Exchange.merged (hex : Exchange old new s m' s' after') :
    Exchange old new s m s' joint where
  live := hex.live
  bytes := by
    intro block hlive hne address hhas
    rw [hjoint]
    split
    · rename_i hsame
      exact (hex.bytes hlive hne hhas).trans hsame
    · rfl
  aligned := hex.aligned
  bounded := hex.bounded
  apart := hex.apart

theorem Exchange.byte_merged (hex : Exchange old (some block) s m' s' after')
    (hbeside : Beside s subject m m') (hold : ∀ block ∈ old, block ∈ subject)
    (hhas : block.Has address) : joint.byte address = after'.byte address := by
  rw [hjoint, if_pos]
  apply hbeside.eq_of_apart hhas
  intro other hlive hother hsubject
  refine hex.apart rfl hlive fun heq => ?_
  exact (hsubject other (hold other heq.symm)).ne hother rfl

/-- Where the memories differ, live blocks keep their bytes, and the allocator does not mind. -/
theorem Contract.sound_merged [Provider ρ] (contract : Contract Sound)
    (hbeside : Beside s subject m m') (hold : ∀ block ∈ old, block ∈ subject)
    (hex : Exchange old new s m' s' after') (hsound : Sound s' provider after') :
    Sound s' provider joint := by
  apply contract.frame hsound
  intro address hfree
  rw [hjoint]
  split
  · rfl
  · rename_i hdiffer
    rcases hbeside address with hsame | ⟨other, hlive, hhas, hsubject⟩
    · exact absurd hsame hdiffer
    · refine absurd hhas (hfree other ((hex.live other).mpr (.inr ⟨hlive, fun heq => ?_⟩)))
      exact (hsubject other (hold other heq.symm)).ne hhas rfl

theorem Acquired.merged {outcome : Outcome α} (hbeside : Beside s none m m')
    (h : Acquired cleared total align s m' { outcome with memory := after' }) :
    Acquired cleared total align s m { outcome with memory := joint } where
  exchange := h.exchange.merged hjoint
  zeroed := by
    intro hcleared base hbase i hi
    have hex := h.exchange
    rw [hbase] at hex
    have hhas : Block.Has ⟨base, total, align⟩ (base + i) := Block.has_add hi
    rw [hex.byte_merged hjoint hbeside (by simp) hhas]
    exact h.zeroed hcleared hbase hi

theorem Resized.merged {outcome : Outcome α} (hbeside : Beside s (some block) m m')
    (h : Resized block total s m' { outcome with memory := after' }) :
    Resized block total s m { outcome with memory := joint } where
  exchange := h.exchange.merged hjoint
  kept := by
    intro base hbase i hi
    have hex := h.exchange
    rw [hbase] at hex
    have hhas : Block.Has ⟨base, total, block.align⟩ (base + i) :=
      Block.has_add (Nat.lt_of_lt_of_le hi (Nat.min_le_right _ _))
    have hhasOld : block.Has (block.base + i) :=
      Block.has_add (Nat.lt_of_lt_of_le hi (Nat.min_le_left _ _))
    calc
      joint.byte (base + i) = after'.byte (base + i) :=
        hex.byte_merged hjoint hbeside (by simp) hhas
      _ = m'.byte (block.base + i) := h.kept hbase hi
      _ = m.byte (block.base + i) := hbeside.eq_of_subject hhasOld

end merged

section beside

variable [Provider ρ] (contract : Contract Sound) (hsound : Sound s provider m)

include contract hsound

theorem Contract.sound_beside (hbeside : Beside s subject m m') : Sound s provider m' := by
  apply contract.frame hsound
  intro address hfree
  rcases hbeside address with hsame | ⟨other, hlive, hhas, -⟩
  · exact hsame
  · exact absurd hhas (hfree other hlive)

/-- A block that was obtained while others wrote might have been obtained before they did. -/
theorem Contract.acquire_beside {reply : Reply (Outcome α) ρ} (htotal : total < Word.bound)
    (hpower : Word.isPowerOfTwo align) (hbeside : Beside s none m m')
    (hrun : (Allocator.acquire cleared total align s m').run level provider = .ok reply) :
    ∃ after, Alike m m' after reply.answer.memory ∧
      Acquired cleared total align s m (inMemory reply after).answer ∧
      Sound reply.answer.state reply.state after ∧
      (Discreet Sound → (Allocator.acquire cleared total align s m).run level provider =
        .ok (inMemory reply after)) := by
  by_cases hdiscreet : Discreet Sound
  · obtain ⟨after, hafter, halike⟩ := hdiscreet.acquire hsound htotal hpower hbeside hrun
    obtain ⟨acquired, hsoundAfter⟩ := (contract.acquire cleared hsound htotal hpower).2 hafter
    exact ⟨after, halike, acquired, hsoundAfter, fun _ => hafter⟩
  · obtain ⟨joint, hjoint⟩ := Memory.exists_merge m m' reply.answer.memory
    obtain ⟨acquired, hsoundAfter⟩ :=
      (contract.acquire cleared (contract.sound_beside hsound hbeside) htotal hpower).2 hrun
    exact ⟨joint, .merged hjoint, acquired.merged hjoint hbeside,
      contract.sound_merged hjoint hbeside (by simp) acquired.exchange hsoundAfter,
      fun h => absurd h hdiscreet⟩

theorem Contract.resize_beside {dialogue : Dialogue (Outcome α)} {reply : Reply (Outcome α) ρ}
    (hlive : Allocator.Live s block) (htotal : total < Word.bound)
    (hbeside : Beside s (some block) m m')
    (hdialogue : Allocator.resize block total s m' = .ok dialogue)
    (hrun : dialogue.run level provider = .ok reply) :
    ∃ after, Alike m m' after reply.answer.memory ∧
      Resized block total s m (inMemory reply after).answer ∧
      Sound reply.answer.state reply.state after ∧
      (Discreet Sound → ∃ same, Allocator.resize block total s m = .ok same ∧
        same.run level provider = .ok (inMemory reply after)) := by
  by_cases hdiscreet : Discreet Sound
  · obtain ⟨same, after, hsame, hafter, halike⟩ :=
      hdiscreet.resize hsound hlive htotal hbeside hdialogue hrun
    obtain ⟨_, hagain, -, hruns⟩ := contract.resize hsound hlive htotal
    obtain rfl := Except.ok.inj (hsame.symm.trans hagain)
    obtain ⟨resized, hsoundAfter⟩ := hruns hafter
    exact ⟨after, halike, resized, hsoundAfter, fun _ => ⟨same, hsame, hafter⟩⟩
  · obtain ⟨joint, hjoint⟩ := Memory.exists_merge m m' reply.answer.memory
    obtain ⟨_, hagain, -, hruns⟩ :=
      contract.resize (contract.sound_beside hsound hbeside) hlive htotal
    obtain rfl := Except.ok.inj (hdialogue.symm.trans hagain)
    obtain ⟨resized, hsoundAfter⟩ := hruns hrun
    have hold : ∀ old ∈ reply.answer.base.map fun _ => block, old ∈ some block := by
      intro old hmem
      obtain ⟨_, -, rfl⟩ := Option.map_eq_some_iff.mp hmem
      rfl
    exact ⟨joint, .merged hjoint, resized.merged hjoint hbeside,
      contract.sound_merged hjoint hbeside hold resized.exchange hsoundAfter,
      fun h => absurd h hdiscreet⟩

theorem Contract.release_beside (hlive : Allocator.Live s block)
    (hbeside : Beside s (some block) m m')
    (hrelease : Allocator.release block s m' = .ok (s', after')) :
    ∃ after, Alike m m' after after' ∧ Exchange (some block) none s m s' after ∧
      Sound s' provider after ∧
      (Discreet Sound → Allocator.release block s m = .ok (s', after)) := by
  by_cases hdiscreet : Discreet Sound
  · obtain ⟨after, hafter, halike⟩ := hdiscreet.release hsound hlive hbeside hrelease
    obtain ⟨_, _, hagain, hex, hsoundAfter⟩ := contract.release hsound hlive
    cases hafter.symm.trans hagain
    exact ⟨after, halike, hex, hsoundAfter, fun _ => hafter⟩
  · obtain ⟨joint, hjoint⟩ := Memory.exists_merge m m' after'
    obtain ⟨_, _, hagain, hex, hsoundAfter⟩ :=
      contract.release (contract.sound_beside hsound hbeside) hlive
    cases hrelease.symm.trans hagain
    exact ⟨joint, .merged hjoint, hex.merged hjoint,
      contract.sound_merged hjoint hbeside (fun _ h => h) hex hsoundAfter,
      fun h => absurd h hdiscreet⟩

end beside

namespace TopSpace

variable {s : TopSpace}

structure Paired (m m' : Memory) (a b : Outcome TopSpace) : Prop where
  base : a.base = b.base
  state : a.state = b.state
  memory : Alike m m' a.memory b.memory

theorem Paired.unchanged (base : Option Nat) (s : TopSpace) (m m' : Memory) :
    Paired m m' ⟨base, s, m⟩ ⟨base, s, m'⟩ := ⟨rfl, rfl, fun _ h => h⟩

theorem Paired.eq_inMemory {ρ : Type} {a : Outcome TopSpace} {reply : Reply (Outcome TopSpace) ρ}
    (h : Paired m m' a reply.answer) :
    ⟨a, reply.state, reply.events⟩ = inMemory reply a.memory := by
  obtain ⟨base, state, memory⟩ := a
  obtain ⟨⟨_, _, _⟩, _, _⟩ := reply
  obtain ⟨rfl, rfl, -⟩ := h
  rfl

theorem both_acquire (cleared : Bool) (total align : Nat) (s : TopSpace) (m m' : Memory) :
    (acquire cleared total align s m).Both (Paired m m') (acquire cleared total align s m') := by
  unfold acquire
  split
  · exact .unchanged none s m m'
  · apply (Dialogue.Both.refl (fun _ => rfl) _).map
    rintro found _ rfl
    cases found with
    | none => exact .unchanged none s m m'
    | some taken =>
      cases cleared with
      | false => exact .unchanged _ _ m m'
      | true =>
        refine ⟨rfl, rfl, fun address hsame => ?_⟩
        simp only [if_true, Memory.byte_fill, hsame]

theorem both_move (hagree : ∀ {address}, block.Has address → m'.byte address = m.byte address)
    (cell : Cell) (total : Nat) :
    (move s m block cell total).Both (Paired m m') (move s m' block cell total) := by
  apply (both_acquire false total block.align s m m').map
  intro a b h
  rw [h.base, h.state]
  cases b.base with
  | none => exact .unchanged none s m m'
  | some base =>
    refine ⟨rfl, rfl, fun address hsame => ?_⟩
    simp only [Memory.byte_copy]
    split
    · exact h.memory _ (hagree (Block.has_add (by omega)))
    · exact h.memory _ hsame

theorem both_resize (hagree : ∀ {address}, block.Has address → m'.byte address = m.byte address)
    {dialogue : Dialogue (Outcome TopSpace)} (h : resize block total s m' = .ok dialogue) :
    ∃ same, resize block total s m = .ok same ∧ same.Both (Paired m m') dialogue := by
  obtain ⟨cell, hcell, h⟩ := Checked.bind_eq_ok.mp h
  rw [resize, hcell, Checked.ok_bind]
  dsimp only at h ⊢
  split at h
  · rename_i hexceeds
    rw [if_pos hexceeds]
    cases h
    exact ⟨_, rfl, .unchanged none s m m'⟩
  · rename_i hexceeds
    rw [if_neg hexceeds]
    split at h
    · rename_i halign
      rw [if_pos halign]
      cases h
      exact ⟨_, rfl, both_move hagree cell total⟩
    · rename_i halign
      rw [if_neg halign]
      split at h
      · rename_i hroom
        rw [if_pos hroom]
        cases h
        exact ⟨_, rfl, .unchanged _ _ m m'⟩
      · rename_i hroom
        rw [if_neg hroom]
        cases hstretch : s.stretch? block cell total (cellLength total) with
        | none =>
          rw [hstretch] at h
          cases h
          exact ⟨_, rfl, both_move hagree cell total⟩
        | some stretched =>
          rw [hstretch] at h
          cases h
          exact ⟨_, rfl, .unchanged _ _ m m'⟩

/-- The top-space allocator reads no byte but those that it copies. -/
theorem discreet [Provider ρ] : Discreet (TopSpace.Sound ρ) where
  acquire := by
    intro s provider m m' cleared total align level reply _ _ _ _ hrun
    obtain ⟨a, ha, paired⟩ := (both_acquire cleared total align s m m').run hrun
    rw [paired.eq_inMemory] at ha
    exact ⟨a.memory, ha, paired.memory⟩
  resize := by
    intro s provider m m' block total level dialogue reply _ _ _ hbeside hdialogue hrun
    obtain ⟨same, hsame, both⟩ := both_resize hbeside.eq_of_subject hdialogue
    obtain ⟨a, ha, paired⟩ := both.run hrun
    rw [paired.eq_inMemory] at ha
    exact ⟨same, a.memory, hsame, ha, paired.memory⟩
  release := by
    intro s provider m m' block s' after' _ _ _ hrelease
    obtain ⟨cell, hcell, h⟩ := Checked.bind_eq_ok.mp hrelease
    cases h
    refine ⟨m, ?_, fun _ hsame => hsame⟩
    change (cellOf s block >>= _) = _
    rw [hcell]
    rfl

end TopSpace

end RegionHeap.Sized
