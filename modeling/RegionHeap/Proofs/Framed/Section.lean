import RegionHeap.Proofs.Framed.Contract
import RegionHeap.Proofs.Sized.Discreet

/-!
# The locked step of a call

Between the locked step of a call and the writing of its header the memory is
behind: it has not got all the headers that are due. Suppose that a heap would
be intact if it had them. Then a call that enters the lock uses the allocator
for the same block, and is told the same, as if it were made alone on the memory
that has them; and both memories are then again the same but for the headers
that are due, among which there is now one more if the call has got a block.
-/
namespace RegionHeap.Framed

open Checked
open Growth (Provider)
open Sized (Alike Allocator Beside Block Contract Dialogue Discreet inMemory)

namespace Call

/-- What the call will be answered with, once it has left the lock. -/
def due : Call → Option Nat
  | framing user _ => some user
  | answered result => result
  | _ => none

/-- The user address whose header is still to be written. -/
def framed? : Call → Option Nat
  | framing user _ => some user
  | _ => none

/-- The header that is still to be written has this address. -/
def Frames (call : Call) (address : Nat) : Prop :=
  ∃ user ∈ call.framed?, user - Header.width ≤ address ∧ address < user

end Call

variable {α ρ : Type} [Allocator α]

/-- The memory of the heap differs from another one in blocks of the register only, and not
in the one that is asked about. -/
def Behind (heap : Framed α ρ) (m : Memory) (register : Register) (subject : Option Nat) : Prop :=
  ∀ address, heap.memory.byte address = m.byte address ∨
    ∃ user, ∃ header : Header, register[user]? = some header ∧ subject ≠ some user ∧
      (header.block user).Has address

variable [Provider ρ]

/-- What a call that held the lock has led to, and what it would have led to alone. -/
structure Passed (Sound : α → ρ → Memory → Prop) (Fit : ρ → Prop) (heap : Framed α ρ)
    (m : Memory) (register : Register) (request : Request)
    (reply : Reply Call (Framed α ρ)) (m' : Memory) : Prop where
  served : Served Sound Fit { heap with memory := m } register request
    ⟨reply.answer.due, { reply.state with memory := m' }, reply.events⟩
  call : reply.answer = .answered none ∨
    ∃ user, reply.answer = .framing user (register.headerFor request)
  alike : ∀ {address}, heap.memory.byte address = m.byte address →
    ¬reply.answer.Frames address → reply.state.memory.byte address = m'.byte address
  spares : ∀ {user} {header : Header}, register[user]? = some header →
    request.subject? ≠ some user → ∀ {address}, (header.block user).Has address →
    reply.state.memory.byte address = heap.memory.byte address
  alone : Discreet Sound → Framed.serve request { heap with memory := m } =
    .ok ⟨reply.answer.due, { reply.state with memory := m' }, reply.events⟩

variable {Sound : α → ρ → Memory → Prop} {Fit : ρ → Prop} {heap : Framed α ρ} {m after : Memory}
  {register : Register} {request : Request} {critical : Critical} {header : Header}

omit [Provider ρ] in
theorem Behind.beside {subject : Option Nat} (h : heap.Behind m register subject)
    (integrity : Integrity { heap with memory := m } register) :
    Beside heap.allocator (register.block? subject) m heap.memory := by
  intro address
  rcases h address with hsame | ⟨user, header, hheader, hne, hhas⟩
  · exact .inl hsame
  · refine .inr ⟨_, (integrity.entry hheader).live, hhas, fun block hblock => ?_⟩
    obtain ⟨other, rfl, hother⟩ := Option.bind_eq_some_iff.mp hblock
    obtain ⟨old, hold, rfl⟩ := Option.map_eq_some_iff.mp hother
    exact integrity.apart hold hheader fun heq => hne (congrArg some heq)

/-- Once the allocator has given its outcome, the two memories differ by the header that
is to be written. -/
theorem passed_of_placed {dialogue : Dialogue (Outcome α)} {placed : Reply (Outcome α) ρ}
    (henter : heap.enter critical = heap.place header dialogue)
    (hrun : dialogue.run heap.level heap.provider = .ok placed)
    (hheader : register.headerFor request = header) (hleast : Word.minAlign ≤ header.align)
    (halike : Alike m heap.memory after placed.answer.memory)
    (hserved : Served Sound Fit { heap with memory := m } register request
      (settled { heap with memory := m } header (inMemory placed after)))
    (hspares : ∀ {user} {old : Header}, register[user]? = some old →
      request.subject? ≠ some user → ∀ {address}, (old.block user).Has address →
      placed.answer.memory.byte address = heap.memory.byte address)
    (halone : Discreet Sound → Framed.serve request { heap with memory := m } =
      .ok (settled { heap with memory := m } header (inMemory placed after))) :
    ∃ reply m', heap.enter critical = .ok reply ∧
      Passed Sound Fit heap m register request reply m' := by
  have hplace := henter
  rw [place, hrun, ok_bind] at hplace
  obtain ⟨⟨base, allocator, memory⟩, provider, events⟩ := placed
  cases base with
  | none =>
    exact ⟨_, after, hplace, hserved, .inl rfl, fun hsame _ => halike _ hsame, hspares, halone⟩
  | some base =>
    refine ⟨_, header.write (base + header.align) after, hplace, hserved,
      .inr ⟨_, by rw [hheader]⟩, fun {address} hsame houtside => ?_, hspares, halone⟩
    have hwidth : Header.width ≤ base + header.align :=
      Nat.le_trans hleast (Nat.le_add_left _ _)
    have hbeyond : base + header.align ≤ address ∨
        address < base + header.align - Header.width := by
      by_contra hinside
      exact houtside ⟨_, rfl, by omega, by omega⟩
    rw [Header.byte_write hwidth hbeyond]
    exact halike _ hsame

section enter

variable (contract : Contract Sound) (reliable : Provider.Reliable Fit)
  (h : Intact Sound Fit { heap with memory := m } register)
  (hbehind : heap.Behind m register request.subject?)
  (hopened : Call.opened m request = .entering critical)

include contract h hbehind hopened

include reliable in
theorem Intact.enter_new (hnew : request.subject? = none) (hkeeps : request.releases = false) :
    ∃ reply m', heap.enter critical = .ok reply ∧
      Passed Sound Fit heap m register request reply m' := by
  rw [Call.opened_of_new register m hnew hkeeps] at hopened
  split at hopened
  · rename_i hword
    obtain rfl := Call.entering.inj hopened
    have hbeside := hbehind.beside h.toIntegrity
    rw [hnew] at hbeside
    have proper := Register.proper_headerFor hnew hword
    obtain ⟨hasks, hruns⟩ := contract.acquire request.zeroes
      (contract.sound_beside h.sound hbeside) hword proper.power
    obtain ⟨placed, hrun, hfit⟩ := hasks.run_returns reliable h.fit heap.level
    obtain ⟨acquired, -⟩ := hruns hrun
    obtain ⟨after, halike, acquiredAlone, hsound, halone⟩ :=
      contract.acquire_beside h.sound hword proper.power hbeside hrun
    refine passed_of_placed rfl hrun rfl proper.least halike
      (h.acquired contract hsound hfit hnew hkeeps hword acquiredAlone) ?_ fun discreet => ?_
    · intro user old hold _ address hhas
      exact acquired.exchange.bytes (h.entry hold).live (by simp) hhas
    · rw [serve_new_eq register hnew hkeeps hword]
      exact bind_eq_ok.mpr ⟨_, halone discreet, rfl⟩
  · cases hopened

include reliable in
theorem Intact.enter_resize {user size : Nat} {old : Header}
    (hrequest : request = .resize (some user) size) (hold : register[user]? = some old) :
    ∃ reply m', heap.enter critical = .ok reply ∧
      Passed Sound Fit heap m register request reply m' := by
  subst hrequest
  have entry := h.entry hold
  have hread : Header.read m user = old := entry.read
  rw [Call.opened_resize, hread] at hopened
  split at hopened
  · rename_i hword
    obtain rfl := Call.entering.inj hopened
    have hbeside := hbehind.beside h.toIntegrity
    rw [Request.subject?, Register.block?_of_some hold] at hbeside
    have hheader : register.headerFor (.resize (some user) size) = ⟨size, old.align⟩ := by
      rw [Register.headerFor, Register.alignFor_resize hold, Request.size]
    obtain ⟨dialogue, hdialogue, hasks, hruns⟩ := contract.resize
      (contract.sound_beside h.sound hbeside) entry.live hword
    obtain ⟨placed, hrun, hfit⟩ := hasks.run_returns reliable h.fit heap.level
    obtain ⟨resized, -⟩ := hruns hrun
    obtain ⟨after, halike, resizedAlone, hsound, halone⟩ :=
      contract.resize_beside h.sound entry.live hword hbeside hdialogue hrun
    have henter : heap.enter (.resize user old size (size + old.align)) =
        heap.place ⟨size, old.align⟩ dialogue := by
      rw [enter, entry.blockOf_eq_ok, ok_bind, hdialogue, ok_bind]
    have hsoundAfter : Sound (inMemory placed after).answer.state (inMemory placed after).state
        (inMemory placed after).answer.memory := hsound
    have hserved := h.resized contract hsoundAfter hfit hold hword resizedAlone
    refine passed_of_placed henter hrun hheader entry.least halike hserved ?_ fun discreet => ?_
    · intro other header hother hne address hhas
      have hstays := h.ne_block? hother hne
      rw [Request.subject?, Register.block?_of_some hold] at hstays
      refine resized.exchange.bytes (h.entry hother).live (fun heq => hstays ?_) hhas
      obtain ⟨_, -, hblock⟩ := Option.map_eq_some_iff.mp heq.symm
      rw [hblock]
    · obtain ⟨same, hsame, hrunSame⟩ := halone discreet
      rw [serve_resize_eq entry.read entry.blockOf_eq_ok hword hsame]
      exact bind_eq_ok.mpr ⟨_, hrunSame, rfl⟩
  · cases hopened

theorem Intact.enter_release {user : Nat} {old : Header}
    (hrequest : request = .release (some user)) (hold : register[user]? = some old) :
    ∃ reply m', heap.enter critical = .ok reply ∧
      Passed Sound Fit heap m register request reply m' := by
  subst hrequest
  have entry := h.entry hold
  have hread : Header.read m user = old := entry.read
  have hsection : Critical.release user old = critical := by
    rw [← hread]
    exact Call.entering.inj hopened
  subst hsection
  have hbeside := hbehind.beside h.toIntegrity
  rw [Request.subject?, Register.block?_of_some hold] at hbeside
  obtain ⟨s', memory, hrelease, hex, -⟩ :=
    contract.release (contract.sound_beside h.sound hbeside) entry.live
  obtain ⟨after, halike, hexAlone, hsound, halone⟩ :=
    contract.release_beside h.sound entry.live hbeside hrelease
  have henter : heap.enter (.release user old) =
      .ok ⟨.answered none, { heap with allocator := s', memory := memory }, []⟩ := by
    rw [enter, entry.blockOf_eq_ok, ok_bind, hrelease]
    rfl
  refine ⟨_, after, henter, h.released hold hexAlone hsound, .inl rfl,
    fun hsame _ => halike _ hsame, ?_, fun discreet => ?_⟩
  · intro other header hother hne address hhas
    have hstays := h.ne_block? hother hne
    rw [Request.subject?, Register.block?_of_some hold] at hstays
    exact hex.bytes (h.entry hother).live hstays hhas
  · have hopenedOld : Call.opened m (.release (some user)) = .entering (.release user old) := by
      rw [Call.opened, hread]
    exact serve_of_release hopenedOld entry.blockOf_eq_ok (halone discreet)

include reliable in
/-- A call that was opened on the memory it would have alone gets through the lock. -/
theorem Intact.enter (hsubject : ∀ user ∈ request.subject?, user ∈ register) :
    ∃ reply m', heap.enter critical = .ok reply ∧
      Passed Sound Fit heap m register request reply m' := by
  cases hkeeps : request.releases with
  | true =>
    cases request with
    | release block =>
      cases block with
      | none => cases hopened
      | some user =>
        obtain ⟨old, hold⟩ := Record.mem_iff.mp (hsubject user rfl)
        exact h.enter_release contract hbehind hopened rfl hold
    | _ => cases hkeeps
  | false =>
    rcases Request.new_or_resize hkeeps with hnew | ⟨user, size, hrequest⟩
    · exact h.enter_new contract reliable hbehind hopened hnew hkeeps
    · obtain ⟨old, hold⟩ := Record.mem_iff.mp (hsubject user (by rw [hrequest]; rfl))
      exact h.enter_resize contract reliable hbehind hopened hrequest hold

end enter

end RegionHeap.Framed
