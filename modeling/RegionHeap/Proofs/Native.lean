import RegionHeap.Native
import RegionHeap.Proofs.Heap
import RegionHeap.Proofs.Host.Allocator
import RegionHeap.Proofs.Word

/-!
# The native heap keeps the contract of a heap

Over a host allocator that does what its documentation says, the blocks that a
client holds are the live blocks of the host. Their sizes agree but for the byte
that is kept when a block is resized to nothing, and this is why a refusal to
resize always leaves the block alone.
-/
namespace RegionHeap.Native

open Checked
open HostAllocator (Contract Exchange Live Obtained Resized)

variable {η : Type} [HostAllocator η] {Sound : η → Prop} {heap : Native η}
  {held : Std.TreeMap Nat Nat} {request : Request}

/-- The held blocks are the live ones, and each has at least the size on record. -/
structure Fits (Sound : η → Prop) (heap : Native η) (held : Std.TreeMap Nat Nat) : Prop where
  sound : Sound heap.host
  backed : ∀ {base size}, held[base]? = some size →
    Live heap.host base size ∨ size = 0 ∧ Live heap.host base 1
  held : ∀ {base size}, Live heap.host base size → base ∈ held

theorem fits_of_nothing (hsound : Sound heap.host)
    (hnone : ∀ base size, ¬Live heap.host base size) : Fits Sound heap ∅ where
  sound := hsound
  backed := by simp
  held hlive := absurd hlive (hnone _ _)

theorem fits_initial (contract : Contract Sound) : Fits Sound (initial : Native η) ∅ :=
  fits_of_nothing contract.empty.1 contract.empty.2

namespace Fits

theorem live (h : Fits Sound heap held) {base size : Nat} (hsize : held[base]? = some size) :
    ∃ given, Live heap.host base given ∧ size ≤ given := by
  rcases h.backed hsize with hlive | ⟨rfl, hlive⟩
  · exact ⟨size, hlive, Nat.le_refl _⟩
  · exact ⟨1, hlive, Nat.zero_le _⟩

section exchange

variable {given : Nat} {answer : Option Nat} {next : Native η}

theorem after (h : Fits Sound heap held) (hsound : Sound next.host)
    (hexchange : Exchange (request.ended? answer) (answer.map (·, given)) heap.host heap.memory
      next.host next.memory)
    (hsilent : request.releases → answer = none)
    (hgiven : given = request.size ∨ request.size = 0 ∧ given = 1) :
    Fits Sound next (Client.recordAfter held request answer) where
  sound := hsound
  backed := by
    intro base size hsize
    rw [Client.getElem?_recordAfter hsilent] at hsize
    split at hsize
    · rename_i hanswer
      obtain rfl := Option.some.inj hsize
      have hlive : Live next.host base given :=
        (hexchange.live ..).mpr (.inl (by rw [hanswer]; rfl))
      rcases hgiven with rfl | ⟨hempty, rfl⟩
      · exact .inl hlive
      · exact .inr ⟨hempty, hlive⟩
    · split at hsize
      · cases hsize
      · rename_i hended
        have hkept : ∀ {size}, Live heap.host base size → Live next.host base size :=
          fun hlive => (hexchange.live ..).mpr (.inr ⟨hlive, Ne.symm hended⟩)
        exact (h.backed hsize).imp hkept (And.imp_right hkept)
  held := by
    intro base size hlive
    rw [Record.mem_iff, Client.getElem?_recordAfter hsilent]
    rcases (hexchange.live ..).mp hlive with hnew | ⟨hold, hended⟩
    · obtain ⟨new, hanswer, heq⟩ := Option.map_eq_some_iff.mp hnew.symm
      obtain ⟨rfl, -⟩ := Prod.mk.inj heq
      exact ⟨_, if_pos hanswer⟩
    · obtain ⟨size, hsize⟩ := Record.mem_iff.mp (h.held hold)
      split
      · exact ⟨_, rfl⟩
      · rw [if_neg (Ne.symm hended)]
        exact ⟨size, hsize⟩

theorem met (h : Fits Sound heap held)
    (hexchange : Exchange (request.ended? answer) (answer.map (·, given)) heap.host heap.memory
      next.host next.memory)
    (hsilent : request.releases → answer = none)
    (hzeroed : request.zeroes → ∀ {block}, answer = some block → request.size < Word.bound ∧
      ∀ {i}, i < request.size → next.memory.byte (block + i) = 0)
    (hresized : ∀ {old size block}, request = .resize (some old) size → answer = some block →
      ∀ {oldSize}, held[old]? = some oldSize → ∀ {i}, i < min oldSize size →
        next.memory.byte (block + i) = heap.memory.byte (old + i))
    (haligned : ∀ {align block}, request.wish? = some align → Word.isPowerOfTwo align →
      answer = some block → block % align = 0) :
    request.Met held heap.memory answer next.memory where
  kept := by
    intro block size hsize hended i hi
    obtain ⟨given, hlive, hle⟩ := h.live hsize
    exact hexchange.bytes hlive (Ne.symm hended) (Nat.lt_of_lt_of_le hi hle)
  fresh := by
    intro block hanswer
    rcases hexchange.fresh (show some (block, given) = _ by rw [hanswer]; rfl) with hended | hfresh
    · exact .inr (Request.subject?_of_ended? hended.symm)
    · refine .inl (Option.eq_none_iff_forall_ne_some.mpr fun size hsize => ?_)
      obtain ⟨_, hlive, _⟩ := h.live hsize
      exact hfresh _ hlive
  silent := hsilent
  zeroed := hzeroed
  resized := hresized
  aligned := haligned

end exchange

theorem obtained {align : Nat} {outcome : Outcome η} (h : Fits Sound heap held)
    (hnew : request.subject? = none) (hkeeps : request.releases = false)
    (hobtained : Obtained Sound align request.size heap.host heap.memory outcome)
    (hzeroed : request.zeroes → ∀ {block}, outcome.base = some block →
      request.size < Word.bound ∧ ∀ {i}, i < request.size → outcome.memory.byte (block + i) = 0)
    (hwish : ∀ {wish}, request.wish? = some wish → Word.isPowerOfTwo wish → wish ∣ align) :
    request.Met held heap.memory (adopt outcome).answer (adopt outcome).state.memory ∧
      Fits Sound (adopt outcome).state
        (Client.recordAfter held request (adopt outcome).answer) := by
  have hended : request.ended? outcome.base = none := by
    refine Option.eq_none_iff_forall_ne_some.mpr fun block hended => ?_
    cases hnew.symm.trans (Request.subject?_of_ended? hended)
  have hsilent : request.releases → outcome.base = none := by simp [hkeeps]
  have hexchange : Exchange (request.ended? outcome.base) _ heap.host heap.memory
      (adopt outcome).state.host (adopt outcome).state.memory := hended ▸ hobtained.exchange
  refine ⟨h.met hexchange hsilent hzeroed ?_ ?_,
    h.after hobtained.sound hexchange hsilent (.inl rfl)⟩
  · rintro old size block rfl
    cases hnew
  · intro wish block hwished hpower hbase
    exact Nat.mod_eq_zero_of_dvd
      (Nat.dvd_trans (hwish hwished hpower) (Nat.dvd_of_mod_eq_zero (hobtained.aligned hbase)))

end Fits

section requests

variable (contract : Contract Sound) (h : Fits Sound heap held)

include contract h

theorem obtained_allocateAligned {align size : Nat} (halign : align < Word.bound)
    (hsize : size < Word.bound) :
    Obtained Sound (max align HostAllocator.addressSize) size heap.host heap.memory
      (heap.allocateAligned align size) :=
  (contract.acquireAligned h.sound (Nat.max_lt.mpr ⟨halign, by decide⟩) hsize).1

/-- The product is checked here, and the block cleared afterwards. -/
theorem obtained_allocateZeroedAligned {align count size : Nat} (halign : align < Word.bound) :
    Obtained Sound (max align HostAllocator.addressSize) (count * size) heap.host heap.memory
        (heap.allocateZeroedAligned align count size) ∧
      ∀ {base}, (heap.allocateZeroedAligned align count size).base = some base →
        count * size < Word.bound ∧ ∀ {i}, i < count * size →
          (heap.allocateZeroedAligned align count size).memory.byte (base + i) = 0 := by
  unfold allocateZeroedAligned
  split
  · exact ⟨⟨h.sound, .refl _ _, nofun⟩, nofun⟩
  · rename_i bytes hbytes
    obtain ⟨hword, rfl⟩ := Word.mul?_eq_some.mp hbytes
    have hobtained := obtained_allocateAligned contract h halign hword
    dsimp only
    split
    · rename_i hnone
      exact ⟨hobtained, by simp [hnone]⟩
    · rename_i base hbase
      obtain ⟨hcleared, hzero⟩ := hobtained.clear (contract.apart hobtained.sound) hbase
      refine ⟨hcleared, fun hsome => ⟨hword, ?_⟩⟩
      obtain rfl := Option.some.inj (hbase.symm.trans hsome)
      exact hzero

/-- A live block is resized to one byte at least, so that the host never takes it away. -/
theorem serve_resize {old size : Nat} (hword : size < Word.bound) (hheld : old ∈ held) :
    ∃ outcome, HostAllocator.resize (some old) (resizedTo (some old) size) heap.host heap.memory =
        .ok outcome ∧
      (Request.resize (some old) size).Met held heap.memory outcome.base outcome.memory ∧
      Fits Sound (adopt outcome).state
        (Client.recordAfter held (.resize (some old) size) outcome.base) := by
  obtain ⟨oldSize, hold⟩ := Record.mem_iff.mp hheld
  obtain ⟨given, hlive, hle⟩ := h.live hold
  have hnew : max size 1 < Word.bound := Nat.max_lt.mpr ⟨hword, by decide⟩
  obtain ⟨outcome, houtcome, resized⟩ := contract.resize h.sound hlive
    (Nat.lt_of_lt_of_le Nat.zero_lt_one (Nat.le_max_right size 1)) hnew
  have hended : (Request.resize (some old) size).ended? outcome.base =
      outcome.base.map fun _ => old := by
    cases outcome.base <;> rfl
  have hexchange : Exchange ((Request.resize (some old) size).ended? outcome.base) _ heap.host
      heap.memory (adopt outcome).state.host (adopt outcome).state.memory :=
    hended ▸ resized.exchange
  refine ⟨outcome, houtcome, h.met hexchange nofun nofun ?_ nofun,
    h.after resized.sound hexchange nofun ?_⟩
  · intro other otherSize block heq hbase known hknown i hi
    obtain ⟨hsame, rfl⟩ := Request.resize.inj heq
    obtain rfl := Option.some.inj hsame
    obtain rfl := Option.some.inj (hold.symm.trans hknown)
    exact resized.kept hbase (by omega)
  · rcases Nat.eq_zero_or_pos size with rfl | hpos
    · exact .inr ⟨rfl, rfl⟩
    · exact .inl (Nat.max_eq_left hpos)

theorem serve_release {block : Option Nat} (hheld : ∀ old ∈ block, old ∈ held) :
    ∃ next, HostAllocator.release block heap.host heap.memory = .ok next ∧
      (Request.release block).Met held heap.memory none next.2 ∧
      Fits Sound ⟨next.1, next.2⟩ (Client.recordAfter held (.release block) none) := by
  have hreleased : ∃ next, HostAllocator.release block heap.host heap.memory = .ok next ∧
      Sound next.1 ∧ Exchange block none heap.host heap.memory next.1 next.2 := by
    cases block with
    | none => exact ⟨_, contract.releaseNothing, h.sound, .refl heap.host heap.memory⟩
    | some old =>
      obtain ⟨oldSize, hold⟩ := Record.mem_iff.mp (hheld old rfl)
      obtain ⟨given, hlive, -⟩ := h.live hold
      obtain ⟨host, memory, hrelease⟩ := contract.release h.sound hlive
      exact ⟨(host, memory), hrelease⟩
  obtain ⟨⟨host, memory⟩, hrelease, hsound, hexchange⟩ := hreleased
  have hnone : Exchange ((Request.release block).ended? none) ((none : Option Nat).map (·, 0))
      heap.host heap.memory (Native.mk host memory).host (Native.mk host memory).memory := hexchange
  exact ⟨_, hrelease, h.met hnone (fun _ => rfl) nofun nofun nofun,
    h.after hsound hnone (fun _ => rfl) (.inl rfl)⟩

end requests

theorem meets_contract (contract : Contract Sound) : Heap.Contract (Fits Sound) where
  serve := by
    intro heap held request h hwords hheld
    cases request with
    | allocate size =>
      exact ⟨_, rfl, h.obtained rfl rfl (contract.acquire h.sound hwords) nofun nofun⟩
    | allocateAligned align size =>
      have hobtained := obtained_allocateAligned contract h hwords.1 hwords.2
      refine ⟨_, rfl, h.obtained rfl rfl hobtained nofun fun hwish hpower => ?_⟩
      obtain rfl := Option.some.inj hwish
      exact Word.dvd_max hpower (by decide)
    | allocateZeroed count size =>
      obtain ⟨hobtained, hzeroed⟩ := contract.acquireZeroed h.sound hwords.1 hwords.2
      exact ⟨_, rfl, h.obtained rfl rfl hobtained (fun _ => hzeroed) nofun⟩
    | allocateZeroedAligned align count size =>
      obtain ⟨hobtained, hzeroed⟩ := obtained_allocateZeroedAligned contract h hwords.1
      refine ⟨_, rfl, h.obtained rfl rfl hobtained (fun _ => hzeroed) fun hwish hpower => ?_⟩
      obtain rfl := Option.some.inj hwish
      exact Word.dvd_max hpower (by decide)
    | resize block size =>
      cases block with
      | none =>
        refine ⟨_, ?_, h.obtained rfl rfl (contract.acquire h.sound hwords) nofun nofun⟩
        change serve _ _ = _
        rw [serve, contract.resizeNothing]
        rfl
      | some old =>
        obtain ⟨outcome, houtcome, hafter⟩ := serve_resize contract h hwords (hheld old rfl)
        refine ⟨adopt outcome, ?_, hafter⟩
        change serve _ _ = _
        rw [serve, houtcome]
        rfl
    | release block =>
      have hblock : ∀ old ∈ block, old ∈ held := hheld
      obtain ⟨next, hrelease, hafter⟩ := serve_release contract h hblock
      refine ⟨⟨none, ⟨next.1, next.2⟩, []⟩, ?_, hafter⟩
      change serve _ _ = _
      rw [serve, hrelease]
      rfl
  apart := by
    intro heap held h a b sizeA sizeB ha hb hne i j hi hj
    obtain ⟨givenA, hliveA, hleA⟩ := h.live ha
    obtain ⟨givenB, hliveB, hleB⟩ := h.live hb
    exact contract.apart h.sound hliveA hliveB hne (Nat.lt_of_lt_of_le hi hleA)
      (Nat.lt_of_lt_of_le hj hleB)
  memory_withMemory := rfl
  write h _ := ⟨h.sound, h.backed, h.held⟩

theorem granular (contract : Contract Sound) : Heap.Granular (Fits Sound) := by
  intro heap held request reply block h hwords hheld hplain hserve hanswer
  cases request with
  | allocate size =>
    obtain rfl := Except.ok.inj hserve
    exact (contract.acquire h.sound hwords).aligned hanswer
  | resize old size =>
    cases old with
    | none =>
      change serve _ _ = _ at hserve
      rw [serve, contract.resizeNothing] at hserve
      obtain rfl := Except.ok.inj hserve
      exact (contract.acquire h.sound hwords).aligned hanswer
    | some old =>
      obtain ⟨oldSize, hold⟩ := Record.mem_iff.mp (hheld old rfl)
      obtain ⟨given, hlive, -⟩ := h.live hold
      have hnew : max size 1 < Word.bound := Nat.max_lt.mpr ⟨hwords, by decide⟩
      obtain ⟨outcome, houtcome, resized⟩ := contract.resize h.sound hlive
        (Nat.lt_of_lt_of_le Nat.zero_lt_one (Nat.le_max_right size 1)) hnew
      change serve _ _ = _ at hserve
      rw [serve, show HostAllocator.resize (some old) (resizedTo (some old) size) heap.host
        heap.memory = .ok outcome from houtcome] at hserve
      obtain rfl := Except.ok.inj hserve
      exact resized.aligned hanswer
  | _ => cases hplain

end RegionHeap.Native
