import RegionHeap.Proofs.Framed.Runs

/-!
# Refusals change nothing

A framed heap refuses for its own reasons when a number of bytes or a total is
no word, and otherwise because its allocator refuses, be it that the allocator
thinks the total too large or that growth was denied. Over an allocator that
leaves everything alone when it refuses, and a provider that does, a heap after
a refusal is the heap before it. In particular no header of a block that could
not be resized is touched.
-/
namespace RegionHeap.Framed

open Checked
open Growth (Break Granted Provider)
open Sized (Allocator Contract Dialogue Firm TopSpace)

variable {α ρ : Type} [Allocator α] [Provider ρ] {Sound : α → ρ → Memory → Prop}
  {Fit : ρ → Prop} {heap start : Framed α ρ} {register : Register} {request : Request}
  {reply : Reply (Option Nat) (Framed α ρ)} {deeds : List Deed} {client : Client (Framed α ρ)}

/-- At most the provider is another one, and it is the same if nothing was granted. -/
structure Unchanged (heap : Framed α ρ) (reply : Reply (Option Nat) (Framed α ρ)) : Prop where
  level : reply.state.level = heap.level
  allocator : reply.state.allocator = heap.allocator
  memory : reply.state.memory = heap.memory
  provider : Provider.Firm ρ → ¬Granted reply.events → reply.state.provider = heap.provider

omit [Allocator α] in
theorem Unchanged.eq_of_not_granted (h : heap.Unchanged reply) (firm : Provider.Firm ρ)
    (hnone : ¬Granted reply.events) : reply.state = heap := by
  rcases heap with ⟨level, allocator, provider, memory⟩
  obtain ⟨answer, ⟨level', allocator', provider', memory'⟩, events⟩ := reply
  rcases h with ⟨rfl, rfl, rfl, hprovider⟩
  obtain rfl := hprovider firm hnone
  rfl

omit [Allocator α] in
theorem unchanged_settled {dialogue : Dialogue (Outcome α)} {header : Header}
    {inner : Reply (Outcome α) ρ} (hrun : dialogue.run heap.level heap.provider = .ok inner)
    (hnone : inner.answer.base = none) (hallocator : inner.answer.state = heap.allocator)
    (hmemory : inner.answer.memory = heap.memory) :
    heap.Unchanged (heap.settled header inner) where
  level := rfl
  allocator := hallocator
  memory := by simp only [settled, hnone, hmemory]
  provider firm hgrant := Dialogue.state_of_not_granted firm hrun hgrant

theorem Intact.unchanged (contract : Contract Sound) (firm : Firm Sound)
    (h : heap.Intact Sound Fit register) (hkeeps : request.releases = false)
    (hheld : ∀ user ∈ request.subject?, user ∈ register)
    (hserve : heap.serve request = .ok reply) (hnone : reply.answer = none) :
    heap.Unchanged reply := by
  by_cases hword : request.size + register.alignFor request < Word.bound
  · rcases Request.new_or_resize hkeeps with hnew | ⟨user, size, rfl⟩
    · rw [serve_new_eq register hnew hkeeps hword] at hserve
      obtain ⟨inner, hrun, hreply⟩ := bind_eq_ok.mp hserve
      obtain rfl := Except.ok.inj hreply
      have hbase : inner.answer.base = none := Option.map_eq_none_iff.mp hnone
      obtain ⟨hallocator, hmemory⟩ := firm.acquire h.sound
        (Register.proper_headerFor hnew hword).power hrun hbase
      exact unchanged_settled hrun hbase hallocator hmemory
    · obtain ⟨old, hold⟩ := Record.mem_iff.mp (hheld user rfl)
      have entry := h.entry hold
      rw [Register.alignFor_resize hold, Request.size] at hword
      obtain ⟨dialogue, hdialogue, -⟩ := contract.resize h.sound entry.live hword
      rw [serve_resize_eq entry.read entry.blockOf_eq_ok hword hdialogue] at hserve
      obtain ⟨inner, hrun, hreply⟩ := bind_eq_ok.mp hserve
      obtain rfl := Except.ok.inj hreply
      have hbase : inner.answer.base = none := Option.map_eq_none_iff.mp hnone
      obtain ⟨hallocator, hmemory⟩ := firm.resize h.sound entry.live hdialogue hrun hbase
      exact unchanged_settled hrun hbase hallocator hmemory
  · rw [h.serve_of_overflow hkeeps hheld (Nat.le_of_not_lt hword)] at hserve
    obtain rfl := Except.ok.inj hserve
    exact ⟨rfl, rfl, rfl, fun _ _ => rfl⟩

/-- After every run, a request that is refused leaves the blocks of the client, their
headers and all their bytes as they were, and if nothing was granted on the way, the client
with its heap is the same as before, so that whatever it does next goes as if the request
had not been made. A request for more bytes than there are, counting the alignment in
force, is refused, and neither is the provider asked nor a line written. -/
theorem refusal_after_run (contract : Contract Sound) (firm : Firm Sound)
    (reliable : Provider.Reliable Fit) (steadfast : Provider.Firm ρ)
    (fresh : start.Fresh Sound Fit) (hrun : Client.Run ⟨start, ∅⟩ deeds client)
    (hkeeps : request.releases = false) (hheld : ∀ user ∈ request.subject?, user ∈ client.held) :
    (∀ {reply}, client.serve request = .ok reply → reply.answer = none →
      reply.state.held = client.held ∧
      reply.state.heap.allocator = client.heap.allocator ∧
      reply.state.heap.memory = client.heap.memory ∧
      (¬Granted reply.events → reply.state = client)) ∧
    (Word.bound ≤ request.size + (Register.ofDeeds deeds).alignFor request →
      client.serve request = .ok ⟨none, client, []⟩) := by
  obtain ⟨intact, sizes⟩ := fresh.run contract reliable hrun
  have hregister : ∀ user ∈ request.subject?, user ∈ Register.ofDeeds deeds :=
    fun user huser => Record.mem_iff.mpr (sizes.mem (hheld user huser))
  have hrecord : Client.recordAfter client.held request none = client.held := by
    cases request with
    | release block => cases hkeeps
    | resize block size => cases block <;> rfl
    | _ => rfl
  constructor
  · intro reply hserve hnone
    obtain ⟨-, inner, hinner, rfl⟩ := Client.serve_eq_ok.mp hserve
    have unchanged := intact.unchanged contract firm hkeeps hregister hinner hnone
    have hanswer : inner.answer = none := hnone
    simp only [hanswer, hrecord]
    refine ⟨trivial, unchanged.allocator, unchanged.memory, fun hgrant => ?_⟩
    rw [unchanged.eq_of_not_granted steadfast hgrant]
  · intro hword
    refine Client.serve_eq_ok.mpr ⟨hheld, ⟨none, client.heap, []⟩, ?_, ?_⟩
    · exact intact.serve_of_overflow hkeeps hregister hword
    · rw [hrecord]

theorem refusal_after_run_resize : ∃ client, Client.Run ⟨onBreak, ∅⟩
      [.served (.allocateAligned 64 100) (some 0x10000000080)] client ∧
    client.serve (.resize (some 0x10000000080) Word.max) = .ok ⟨none, client, []⟩ := by
  rcases onBreak_run with ⟨client, hrun⟩
  obtain ⟨intact, sizes⟩ := onBreak_fresh.run TopSpace.meets_contract Break.reliable hrun
  have hheld : ∀ user ∈ (Request.resize (some 0x10000000080) Word.max).subject?,
      user ∈ client.held := by
    intro _ hgiven
    cases hgiven
    exact Record.mem_iff.mpr ⟨100, (sizes _).trans (by decide +kernel)⟩
  exact ⟨client, hrun, (refusal_after_run TopSpace.meets_contract TopSpace.firm Break.reliable
    Break.firm onBreak_fresh hrun rfl hheld).2 (by decide +kernel)⟩

end RegionHeap.Framed
