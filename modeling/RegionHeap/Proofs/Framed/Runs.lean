import RegionHeap.Proofs.Contents
import RegionHeap.Proofs.Framed.Contract
import RegionHeap.Proofs.Sized.TopSpace

/-!
# Runs of a client on a framed heap

A client that starts with nothing on a heap that has handed out nothing keeps
the heap intact for as long as it runs, whatever it asks for and whatever it
writes into its own bytes. The register of the heap is then the one that the
deeds of the client lead to.
-/
namespace RegionHeap.Framed

open Growth (Break Provider)
open Sized (Allocator Block Contract TopSpace)

variable {α ρ : Type} [Allocator α]

structure Fresh (Sound : α → ρ → Memory → Prop) (Fit : ρ → Prop) (start : Framed α ρ) : Prop where
  allocator : start.allocator = Allocator.empty
  sound : Sound start.allocator start.provider start.memory
  fit : Fit start.provider

theorem Integrity.eq_of_has {heap : Framed α ρ} {register : Register} {user address : Nat}
    {header : Header} {block : Block} (h : heap.Integrity register)
    (huser : register[user]? = some header) (hlive : Allocator.Live heap.allocator block)
    (hblock : block.Has address) (hhas : (header.block user).Has address) :
    block = header.block user := by
  obtain ⟨other, old, hother, rfl⟩ := h.owned hlive
  by_cases hsame : user = other
  · subst hsame
    rw [Option.some.inj (huser.symm.trans hother)]
  · exact absurd hblock ((h.apart huser hother hsame).not_has hhas)

variable [Provider ρ] {Sound : α → ρ → Memory → Prop} {Fit : ρ → Prop} {start : Framed α ρ}
  {deeds : List Deed} {client : Client (Framed α ρ)}

/-- What a client writes into its blocks is in no header and in no block of another. -/
theorem Intact.update {register : Register} {next : Client (Framed α ρ)}
    {block offset len : Nat} {f : Nat → UInt8} (contract : Contract Sound)
    (intact : client.heap.Intact Sound Fit register) (sizes : register.Sizes client.held)
    (hwrite : client.update block offset len f = .ok next) :
    next.heap.Intact Sound Fit register := by
  obtain ⟨hcovers, rfl⟩ := Client.update_eq_ok.mp hwrite
  refine intact.write contract fun address hfree => ?_
  refine (Memory.byte_update ..).trans (if_neg fun ⟨hstart, hstop⟩ => ?_)
  rcases Client.covers_iff.mp hcovers with hnone | ⟨size, hsize, hfits⟩
  · omega
  · obtain ⟨header, hheader, rfl⟩ := Option.map_eq_some_iff.mp ((sizes _).symm.trans hsize)
    exact hfree _ header hheader ⟨by omega, by omega⟩

theorem Fresh.intact (fresh : start.Fresh Sound Fit) (contract : Contract Sound) :
    start.Intact Sound Fit ∅ where
  entry := by simp
  owned {block} hlive := absurd (fresh.allocator ▸ hlive) (contract.empty block)
  apart := by simp
  sound := fresh.sound
  fit := fresh.fit

theorem Fresh.fits (fresh : start.Fresh Sound Fit) (contract : Contract Sound) :
    Fits Sound Fit start ∅ := ⟨∅, fresh.intact contract, fun _ => rfl⟩

theorem Fresh.run (fresh : start.Fresh Sound Fit) (contract : Contract Sound)
    (reliable : Provider.Reliable Fit) (hrun : Client.Run ⟨start, ∅⟩ deeds client) :
    client.heap.Intact Sound Fit (.ofDeeds deeds) ∧
      (Register.ofDeeds deeds).Sizes client.held := by
  induction hrun with
  | start => exact ⟨fresh.intact contract, fun _ => rfl⟩
  | serve _ _ hserve ih =>
    rcases ih with ⟨intact, sizes⟩
    obtain ⟨hheld, inner, hinner, rfl⟩ := Client.serve_eq_ok.mp hserve
    obtain ⟨reply, hreply, served⟩ := intact.serve contract reliable fun user huser =>
      Record.mem_iff.mpr (sizes.mem (hheld user huser))
    obtain rfl : inner = reply := Except.ok.inj (hinner.symm.trans hreply)
    rw [Register.ofDeeds_served]
    exact ⟨served.intact, sizes.after (served.met sizes).silent⟩
  | write _ hwrite ih =>
    rcases ih with ⟨intact, sizes⟩
    rw [Register.ofDeeds_wrote]
    refine ⟨intact.update contract sizes hwrite, ?_⟩
    obtain ⟨-, rfl⟩ := Client.update_eq_ok.mp hwrite
    exact sizes

/-- The heap of a new process, on its break. -/
def onBreak : Framed TopSpace Break := initial .off (.initial { setting := none, reported := 4096 })

theorem onBreak_fresh : onBreak.Fresh (TopSpace.Sound Break) Break.Paged :=
  ⟨rfl, TopSpace.tidy_empty, by unfold Break.Paged; decide⟩

theorem onBreak_run : ∃ client, Client.Run ⟨onBreak, ∅⟩
    [.served (.allocateAligned 64 100) (some 0x10000000080)] client := by
  obtain ⟨reply, hreply⟩ : ∃ reply,
      (Client.mk onBreak ∅).serve (.allocateAligned 64 100) = .ok reply :=
    Client.serve_returns (meets_contract TopSpace.meets_contract Break.reliable)
      (onBreak_fresh.fits TopSpace.meets_contract) (by decide) (by simp [Request.subject?])
  have hanswer : reply.answer = some 0x10000000080 := by
    have hcomputed : ((Client.mk onBreak ∅).serve (.allocateAligned 64 100)).toOption.bind
        Reply.answer = some 0x10000000080 := by decide +kernel
    rwa [hreply] at hcomputed
  exact ⟨reply.state, hanswer ▸ Client.Run.start.serve (by decide) hreply⟩

/-- After every run the blocks and the headers belong together, as the deeds of the run
say: below every held address stand its size and its alignment, they describe the only
live block around it, no live block is without them, and no two of the blocks meet.
Whatever the client does next about a held block is therefore done to that block. A power of
two that was asked for as an alignment divides the address that was answered. -/
theorem integrity_of_run (contract : Contract Sound) (reliable : Provider.Reliable Fit)
    (fresh : start.Fresh Sound Fit) (hrun : Client.Run ⟨start, ∅⟩ deeds client) :
    (Register.ofDeeds deeds).Sizes client.held ∧
      client.heap.Integrity (.ofDeeds deeds) ∧
      (∀ {request : Request} {user wish : Nat}, Deed.served request (some user) ∈ deeds →
        request.wish? = some wish → Word.isPowerOfTwo wish → user % wish = 0) ∧
      (∀ {user : Nat} {header : Header}, (Register.ofDeeds deeds)[user]? = some header →
        blockOf user (Header.read client.heap.memory user) = .ok (header.block user) ∧
        ∀ {block address}, Allocator.Live client.heap.allocator block → block.Has address →
          (header.block user).Has address → block = header.block user) ∧
      ∀ {request : Request}, request.Words → (∀ user ∈ request.subject?, user ∈ client.held) →
        ∃ reply, client.serve request = .ok reply := by
  obtain ⟨intact, sizes⟩ := fresh.run contract reliable hrun
  refine ⟨sizes, intact.toIntegrity, ?_, ?_, ?_⟩
  · intro request user wish
    exact hrun.aligned (meets_contract contract reliable) (fresh.fits contract)
  · intro user header hheader
    have entry := intact.entry hheader
    refine ⟨?_, intact.eq_of_has hheader⟩
    rw [entry.read, entry.blockOf_eq_ok]
  · intro request hwords hheld
    exact Client.serve_returns (meets_contract contract reliable) ⟨_, intact, sizes⟩ hwords hheld

theorem integrity_of_run_aligned : ∃ client, Client.Run ⟨onBreak, ∅⟩
      [.served (.allocateAligned 64 100) (some 0x10000000080)] client ∧
    Header.read client.heap.memory 0x10000000080 = ⟨100, 64⟩ ∧
    Allocator.Live client.heap.allocator ⟨0x10000000040, 164, 64⟩ := by
  rcases onBreak_run with ⟨client, hrun⟩
  obtain ⟨-, integrity, -⟩ :=
    integrity_of_run TopSpace.meets_contract Break.reliable onBreak_fresh hrun
  have entry : Entry client.heap 0x10000000080 ⟨100, 64⟩ := integrity.entry (by decide +kernel)
  exact ⟨client, hrun, entry.read, entry.live⟩

theorem serve_resize_nothing (client : Client (Framed α ρ)) (size : Nat) :
    client.serve (.resize none size) = client.serve (.allocate size) := by
  have hserve : Heap.serve (.resize none size) client.heap =
      Heap.serve (.allocate size) client.heap := rfl
  have hrecord : ∀ answer, Client.recordAfter client.held (.resize none size) answer =
      Client.recordAfter client.held (.allocate size) answer := by
    rintro (_ | _) <;> rfl
  unfold Client.serve
  simp only [hserve, hrecord]
  rfl

/-- To its client a framed heap is a map from addresses to bytes: every run goes through
the contents that its deeds allow, resizing nothing is obtaining a block, and whatever is
asked next about nothing or about a held block is answered by a step of the contents. -/
theorem contents_of_run (contract : Contract Sound) (reliable : Provider.Reliable Fit)
    (fresh : start.Fresh Sound Fit) (hrun : Client.Run ⟨start, ∅⟩ deeds client) :
    Contents.Run deeds client.contents ∧
      (∀ size, client.serve (.resize none size) = client.serve (.allocate size)) ∧
      ∀ {request : Request}, request.Words → (∀ user ∈ request.subject?, user ∈ client.held) →
        ∃ reply, client.serve request = .ok reply ∧
          Contents.Step (.served request reply.answer) client.contents reply.state.contents := by
  have framed : Heap.Contract (Fits Sound Fit) := meets_contract contract reliable
  obtain ⟨hcontents, hfits⟩ := hrun.contents framed (fresh.fits contract)
  refine ⟨hcontents, serve_resize_nothing client, fun {request} hwords hheld => ?_⟩
  obtain ⟨reply, hreply⟩ := Client.serve_returns framed hfits hwords hheld
  exact ⟨reply, hreply, Client.step_serve framed hfits hwords hreply⟩

theorem contents_of_run_aligned : ∃ client, Client.Run ⟨onBreak, ∅⟩
      [.served (.allocateAligned 64 100) (some 0x10000000080)] client ∧
    Contents.Run [.served (.allocateAligned 64 100) (some 0x10000000080)] client.contents ∧
    ∃ reply, client.serve (.allocateZeroed 3 5) = .ok reply ∧
      Contents.Step (.served (.allocateZeroed 3 5) reply.answer) client.contents
        reply.state.contents := by
  rcases onBreak_run with ⟨client, hrun⟩
  obtain ⟨hcontents, -, hnext⟩ :=
    contents_of_run TopSpace.meets_contract Break.reliable onBreak_fresh hrun
  exact ⟨client, hrun, hcontents, hnext (by decide) (by simp [Request.subject?])⟩

end RegionHeap.Framed
