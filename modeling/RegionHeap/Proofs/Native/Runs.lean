import RegionHeap.Proofs.Contents
import RegionHeap.Proofs.Gateway
import RegionHeap.Proofs.Host.Ascending
import RegionHeap.Proofs.Native

/-!
# Runs of a client on the native heap

The host's allocator differs from the contract of a heap at its edges: it takes
a block away that is given the size zero, it refuses alignments below the size of
an address, and it cannot clear aligned elements. A client sees none of this in
any run, whether it uses the native heap itself, the gateway before it or the
exported operations. What it holds is live for the host all along, with the size
on record or, after a resize to nothing, with one byte.
-/
namespace RegionHeap.Native

open Checked
open HostAllocator (Contract Live Obtained)

variable {η : Type} [HostAllocator η] {Sound : η → Prop} {heap : Native η}
  {held : Std.TreeMap Nat Nat} {request : Request} {reply : Reply (Option Nat) (Native η)}
  {τ : Type} [Heap τ] {wrap : Native η → τ} {inner : τ → Native η} {start : Native η}

/-- An alignment is raised to the size of an address, and then the host refuses it or honors it. -/
theorem aligned_of_serve (contract : Contract Sound) (h : Fits Sound heap held)
    (hwords : request.Words) (hreply : Heap.serve request heap = .ok reply)
    {align block : Nat} (hwish : request.wish? = some align) (hanswer : reply.answer = some block) :
    Word.isPowerOfTwo (max align HostAllocator.addressSize) ∧
      block % max align HostAllocator.addressSize = 0 := by
  have haligned : ∀ {size}, align < Word.bound → size < Word.bound →
      (heap.allocateAligned align size).base = some block →
      Word.isPowerOfTwo (max align HostAllocator.addressSize) ∧
        block % max align HostAllocator.addressSize = 0 := by
    intro size halign hsize hbase
    have hraised : max align HostAllocator.addressSize < Word.bound :=
      Nat.max_lt.mpr ⟨halign, by decide⟩
    obtain ⟨hobtained, hrefuses⟩ :=
      contract.acquireAligned (m := heap.memory) h.sound hraised hsize
    refine ⟨?_, hobtained.aligned hbase⟩
    by_contra hpower
    cases (hrefuses fun hgood => hpower hgood.1).symm.trans hbase
  cases request with
  | allocateAligned wish size =>
    obtain rfl := Option.some.inj hwish
    obtain rfl := Except.ok.inj hreply
    exact haligned hwords.1 hwords.2 hanswer
  | allocateZeroedAligned wish count size =>
    obtain rfl := Option.some.inj hwish
    obtain rfl := Except.ok.inj hreply
    change (heap.allocateZeroedAligned wish count size).base = some block at hanswer
    unfold allocateZeroedAligned at hanswer
    split at hanswer
    · cases hanswer
    · rename_i bytes hbytes
      obtain ⟨hword, rfl⟩ := Word.mul?_eq_some.mp hbytes
      dsimp only at hanswer
      split at hanswer
      · rename_i hnone
        cases hnone.symm.trans hanswer
      · exact haligned hwords.1 hword hanswer
  | _ => cases hwish

/-- All that a client may rely on that uses the native heap through another one. -/
structure Refines (Sound : η → Prop) (inner : τ → Native η) (start : τ) : Prop where
  contents : ∀ {deeds} {client : Client τ}, Client.Run ⟨start, ∅⟩ deeds client →
    Contents.Run deeds client.contents
  backed : ∀ {deeds} {client : Client τ}, Client.Run ⟨start, ∅⟩ deeds client →
    Fits Sound (inner client.heap) client.held
  answered : ∀ {deeds} {client : Client τ} {request : Request},
    Client.Run ⟨start, ∅⟩ deeds client → request.Words →
    (∀ block ∈ request.subject?, block ∈ client.held) →
    ∃ reply, client.serve request = .ok reply ∧
      Contents.Step (.served request reply.answer) client.contents reply.state.contents
  /-- What is refused leaves all blocks alone, with all their bytes. -/
  refused : ∀ {deeds} {client : Client τ} {request : Request} {reply},
    Client.Run ⟨start, ∅⟩ deeds client → request.Words → request.releases = false →
    client.serve request = .ok reply → reply.answer = none →
    reply.state.contents = client.contents
  aligned : ∀ {deeds} {client : Client τ} {request : Request} {reply} {align block : Nat},
    Client.Run ⟨start, ∅⟩ deeds client → request.Words → client.serve request = .ok reply →
    request.wish? = some align → reply.answer = some block →
    Word.isPowerOfTwo (max align HostAllocator.addressSize) ∧
      block % max align HostAllocator.addressSize = 0

theorem refines_of_passes (contract : Contract Sound) (passes : Heap.Passes wrap inner)
    (hfits : Fits Sound start ∅) : Refines Sound inner (wrap start) := by
  have native : Heap.Contract fun heap held => Fits Sound (inner heap) held :=
    passes.meets_contract (meets_contract contract)
  have hstart : Fits Sound (inner (wrap start)) ∅ := by rwa [passes.inner_wrap]
  have hrun : ∀ {deeds} {client : Client τ}, Client.Run ⟨wrap start, ∅⟩ deeds client →
      Contents.Run deeds client.contents ∧ Fits Sound (inner client.heap) client.held :=
    fun run => run.contents native hstart
  constructor
  case contents => exact fun run => (hrun run).1
  case backed => exact fun run => (hrun run).2
  case answered =>
    intro deeds client request run hwords hheld
    obtain ⟨reply, hreply⟩ := Client.serve_returns native (hrun run).2 hwords hheld
    exact ⟨reply, hreply, Client.step_serve native (hrun run).2 hwords hreply⟩
  case refused =>
    intro deeds client request reply run hwords hkeeps hreply hnone
    exact Client.contents_of_refused native (hrun run).2 hwords hkeeps hreply hnone
  case aligned =>
    intro deeds client request reply align block run hwords hreply hwish hanswer
    obtain ⟨-, outer, houter, rfl⟩ := Client.serve_eq_ok.mp hreply
    obtain ⟨behind, hbehind, rfl⟩ := passes.serve_eq_ok.mp houter
    exact aligned_of_serve contract (hrun run).2 hwords hbehind hwish hanswer

/-- On a host that keeps its word, the native heap, the gateway and the exported operations
keep the contract of a heap in every run that starts without blocks. -/
theorem refinement_of_run (contract : Contract Sound) (hsound : Sound start.host)
    (hnone : ∀ base size, ¬Live start.host base size) :
    Refines Sound id start ∧ Refines Sound Gateway.bound ⟨start⟩ ∧
      Refines Sound (fun exported : Exports (Native η) => exported.gateway.bound) ⟨⟨start⟩⟩ := by
  have hfits : Fits Sound start ∅ := fits_of_nothing hsound hnone
  exact ⟨refines_of_passes contract .refl hfits, refines_of_passes contract Gateway.passes hfits,
    refines_of_passes contract (Gateway.passes.trans Exports.passes) hfits⟩

/-- A block that an exported operation has resized to nothing is still there, and the host
knows it as one byte; an alignment that the host refuses leaves it where it is. -/
theorem refinement_of_run_emptied : ∃ client : Client (Exports (Native Ascending)),
    Client.Run ⟨⟨⟨initial⟩⟩, ∅⟩ [.served (.allocate 10) (some 0x100000000),
      .served (.resize (some 0x100000000) 0) (some 0x100000010)] client ∧
    Fits Ascending.Sound client.heap.gateway.bound client.held ∧
    Live client.heap.gateway.bound.host 0x100000010 1 ∧
    ∃ reply, client.serve (.allocateAligned 24 5) = .ok reply ∧ reply.answer = none ∧
      reply.state.contents = client.contents := by
  have hcomputed : (do
      let first ← (Client.mk (⟨⟨initial⟩⟩ : Exports (Native Ascending)) ∅).serve (.allocate 10)
      let second ← first.state.serve (.resize (some 0x100000000) 0)
      let third ← second.state.serve (.allocateAligned 24 5)
      return (first.answer, second.answer, third.answer,
        second.state.heap.gateway.bound.host.sizes[0x100000010]?) : Checked _) =
      .ok (some 0x100000000, some 0x100000010, none, some 1) := by decide +kernel
  obtain ⟨first, hfirst, hcomputed⟩ := bind_eq_ok.mp hcomputed
  obtain ⟨second, hsecond, hcomputed⟩ := bind_eq_ok.mp hcomputed
  obtain ⟨third, hthird, hanswers⟩ := bind_eq_ok.mp hcomputed
  simp only [pure_eq_ok, Except.ok.injEq, Prod.mk.injEq] at hanswers
  obtain ⟨hone, htwo, hthree, hlive⟩ := hanswers
  have hrun := Client.Run.start.serve (by decide) hfirst
  rw [hone] at hrun
  have hrun := hrun.serve (by decide) hsecond
  rw [htwo] at hrun
  have hsound : Ascending.Sound (initial : Native Ascending).host := Ascending.sound_empty
  obtain ⟨-, -, refines⟩ := refinement_of_run Ascending.meets_contract hsound
    (by simp [Live, initial, HostAllocator.empty])
  exact ⟨_, hrun, refines.backed hrun, hlive, third, hthird, hthree,
    refines.refused hrun (by decide) rfl hthird hthree⟩

end RegionHeap.Native
