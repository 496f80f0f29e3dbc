import RegionHeap.Proofs.Framed.Shared.Settled

/-!
# Steps of threads that share a heap

A step of a thread is one of six. It begins a call or comes to the lock, it
settles the answer, it writes the header, it is told the answer, it writes into a
block, or it hands a block over. Only the second and the fifth mean something to
a single client that does the same deeds, and there they mean the same. A step that
the users allow is never a fault.
-/
namespace RegionHeap.Framed.Shared

open Checked
open Growth (Provider)
open Sized (Allocator Contract)

variable {α ρ : Type} [Allocator α] [Provider ρ] {n : Nat}
  {Sound : α → ρ → Memory → Prop} {Fit : ρ → Prop} {start : Framed α ρ}
  {s next : Shared α ρ n} {m m' : Memory} {thread other : Fin n} {activity : Activity}
  {request : Request} {user address : Nat} {header : Header}

theorem Mirrors.going {activities : Vector Activity n} {told : Vector (List Deed) n}
    (h : s.Mirrors Sound Fit start m)
    (hframes : ∀ other, (activities.get other).framed? = (s.activities.get other).framed?)
    (hproceeds : ∀ other, s.Proceeds m other (activities.get other))
    (htold : ∀ other, told.get other ++ (activities.get other).owed = s.deedsOf other) :
    ({ s with activities := activities, told := told } : Shared α ρ n).Mirrors
      Sound Fit start m where
  intact := h.intact
  sizes := h.sizes
  contents := h.contents
  alone := h.alone
  owned := h.owned
  alike := by
    intro address hfree
    apply h.alike
    intro other ⟨user, hother, hrange⟩
    exact hfree other ⟨user, (hframes other).trans hother, hrange⟩
  proceeds := hproceeds
  written := by
    intro user header hheader hfree
    exact h.written hheader fun other hother => hfree other ((hframes other).trans hother)
  told := htold

/-- A thread has come to something else in its call, and nothing was written or answered. -/
theorem Mirrors.doing (h : s.Mirrors Sound Fit start m)
    (hframed : (s.activities.get thread).framed? = none) (hframed' : activity.framed? = none)
    (howed : activity.owed = (s.activities.get thread).owed)
    (hproceeds : s.Proceeds m thread activity) :
    (s.doing thread activity).Mirrors Sound Fit start m := by
  refine h.going (fun other => ?_) (fun other => ?_) fun other => ?_
  · rw [Record.get_set]
    split
    · rename_i hsame
      rw [← hsame, hframed, hframed']
    · rfl
  · rw [Record.get_set]
    split
    · rename_i hsame
      exact hsame ▸ hproceeds
    · exact h.proceeds other
  · rw [Record.get_set]
    split
    · rename_i hsame
      rw [howed, hsame]
      exact h.told other
    · exact h.told other

omit [Allocator α] [Provider ρ] in
theorem deedsOf_snoc {deed : Deed} (h : next.log = s.log ++ [(thread, deed)]) :
    next.deedsOf other = s.deedsOf other ++ if thread = other then [deed] else [] := by
  rw [deedsOf, h, List.filter_append, List.map_append]
  refine congrArg _ ?_
  split <;> simp_all

omit [Allocator α] [Provider ρ] in
theorem deeds_snoc {deed : Deed} (h : next.log = s.log ++ [(thread, deed)]) :
    next.deeds = s.deeds ++ [deed] := by
  rw [deeds, h, List.map_append]
  rfl

section decided

variable {call : Call} {reply : Reply Call (Framed α ρ)} (h : s.Mirrors Sound Fit start m)
  (hsubject : ∀ user ∈ request.subject?, s.Owns thread user)
  (passed : Passed Sound Fit s.client.heap m s.register request reply m')

include h hsubject passed

theorem Mirrors.ne_of_passed (howns : s.Owns other user) (hne : other ≠ thread) :
    reply.answer.due ≠ some user ∧ request.ended? reply.answer.due ≠ some user := by
  have hother : request.subject? ≠ some user := fun hsame =>
    hne (howns.eq (hsubject user hsame))
  refine ⟨fun hdue => ?_, fun hended => hother (Request.subject?_of_ended? hended)⟩
  obtain ⟨size, hsize⟩ := Record.mem_iff.mp (h.mem_held howns)
  rcases (passed.served.met h.sizes).fresh hdue with hfree | hsame
  · cases hfree.symm.trans hsize
  · exact hother hsame

theorem Mirrors.isolated_decide : s.Isolated thread (s.decide thread request reply) where
  kept := by
    intro other user header howns hne hheader
    obtain ⟨hdue, hended⟩ := h.ne_of_passed hsubject passed howns hne
    constructor
    · change (ownersAfter _ _ _ _)[user]? = _
      rw [getElem?_ownersAfter, if_neg hdue, if_neg hended]
      exact howns
    · rw [register, deeds_snoc rfl, Register.ofDeeds_served, Register.getElem?_after, if_neg hdue,
        if_neg hended]
      exact hheader
  bytes := by
    intro other user header address howns hne hheader hhas
    refine passed.spares hheader (fun hsame => ?_) hhas
    exact hne (howns.eq (hsubject user hsame))

omit h hsubject in
theorem owed_of_passed :
    (Activity.calling request reply.answer).owed = [.served request reply.answer.due] := by
  rcases passed.call with hcall | ⟨user, hcall⟩ <;> rw [hcall] <;> rfl

omit [Allocator α] [Provider ρ] h hsubject passed in
theorem register_decide : (s.decide thread request reply).register =
    s.register.after request reply.answer.due := by
  rw [register, deeds_snoc rfl, Register.ofDeeds_served]
  rfl

omit [Allocator α] [Provider ρ] h hsubject passed in
theorem get_decide : (s.decide thread request reply).activities.get other =
    if thread = other then .calling request reply.answer else s.activities.get other := get_doing

omit hsubject passed in
theorem Mirrors.owned_decide (howns : (s.decide thread request reply).Owns other user) :
    ∃ header, (s.decide thread request reply).register[user]? = some header := by
  change (ownersAfter _ _ _ _)[user]? = _ at howns
  rw [getElem?_ownersAfter] at howns
  rw [register_decide, Register.getElem?_after]
  split at howns
  · rename_i hdue
    rw [if_pos hdue]
    exact ⟨_, rfl⟩
  · rename_i hdue
    rw [if_neg hdue]
    split at howns
    · cases howns
    · rename_i hended
      rw [if_neg hended]
      exact h.owned howns

section

variable (hframed : (s.activities.get thread).framed? = none)

include hframed

omit hsubject in
/-- The header that the answer is still to get is the only difference that it makes. -/
theorem Mirrors.alike_decide
    (hfree : ∀ other, ¬((s.decide thread request reply).activities.get other).Frames address) :
    reply.state.memory.byte address = m'.byte address := by
  apply passed.alike
  · apply h.alike
    intro other hframes
    by_cases hsame : thread = other
    · obtain ⟨user, huser, -⟩ := hframes
      rw [← hsame] at huser
      cases hframed.symm.trans huser
    · exact hfree other (by rwa [get_decide, if_neg hsame])
  · intro hframes
    exact hfree thread (by rwa [get_decide, if_pos rfl])

omit hsubject in
theorem Mirrors.written_decide
    (hheader : (s.decide thread request reply).register[user]? = some header)
    (hfree : ∀ other,
      ((s.decide thread request reply).activities.get other).framed? ≠ some user) :
    s.written[user]? = some header := by
  rw [register_decide, Register.getElem?_after] at hheader
  split at hheader
  · rename_i hdue
    have hframes := hfree thread
    rw [get_decide, if_pos rfl] at hframes
    rcases passed.call with hcall | ⟨framed, hcall⟩
    · rw [hcall] at hdue
      cases hdue
    · rw [hcall] at hdue hframes
      exact absurd hdue hframes
  · split at hheader
    · cases hheader
    · apply h.written hheader
      intro other hother
      by_cases hsame : thread = other
      · rw [← hsame, hframed] at hother
        cases hother
      · exact hfree other (by rwa [get_decide, if_neg hsame])

end

theorem Mirrors.proceeds_decide : (s.decide thread request reply).Proceeds m' other
    ((s.decide thread request reply).activities.get other) := by
  rw [get_decide]
  split
  · rename_i hsame
    subst hsame
    rcases passed.call with hcall | ⟨user, hcall⟩
    · rw [hcall]
      trivial
    · have hdue : reply.answer.due = some user := by rw [hcall]; rfl
      rw [hcall]
      refine ⟨?_, ?_⟩
      · change (ownersAfter _ _ _ _)[user]? = _
        rw [getElem?_ownersAfter, if_pos hdue]
      · rw [register_decide, Register.getElem?_after, if_pos hdue]
  · rename_i hne
    refine h.proceeds_of_isolated ?_ (h.isolated_decide hsubject passed)
      (fun heq => hne heq.symm) (h.proceeds other)
    rw [register_decide]
    exact passed.served.intact

omit hsubject in
theorem Mirrors.told_decide (howed : (s.activities.get thread).owed = []) :
    s.told.get other ++ ((s.decide thread request reply).activities.get other).owed =
      (s.decide thread request reply).deedsOf other := by
  rw [deedsOf_snoc rfl, get_decide]
  split
  · rename_i hsame
    subst hsame
    rw [owed_of_passed passed, ← h.told thread, howed, List.append_nil]
  · rw [List.append_nil]
    exact h.told other

/-- Whatever the locked step of a call has led to is a step of a single client. -/
theorem Mirrors.decide (hframed : (s.activities.get thread).framed? = none)
    (howed : (s.activities.get thread).owed = []) (hwords : request.Words) :
    (s.decide thread request reply).Mirrors Sound Fit start m' := by
  have met := passed.served.met h.sizes
  have hheld : ∀ user ∈ request.subject?, user ∈ (s.settled m).held := fun user huser =>
    h.mem_held (hsubject user huser)
  exact {
    intact := by
      rw [register_decide]
      exact passed.served.intact
    sizes := by
      rw [register_decide]
      exact h.sizes.after met.silent
    contents := by
      rw [deeds_snoc rfl]
      exact .step h.contents (Client.step_met met rfl hheld)
    alone := by
      intro discreet
      rw [deeds_snoc rfl]
      have hserve : (s.settled m).serve request = .ok
          ⟨reply.answer.due, (s.decide thread request reply).settled m', reply.events⟩ :=
        Client.serve_eq_ok.mpr ⟨hheld, _, passed.alone discreet, rfl⟩
      exact .serve (h.alone discreet) hwords hserve
    owned := h.owned_decide
    alike := h.alike_decide passed hframed
    proceeds := fun _ => h.proceeds_decide hsubject passed
    written := h.written_decide passed hframed
    told := fun _ => h.told_decide passed howed }

end decided

section framed

variable (h : s.Mirrors Sound Fit start m)
  (hactivity : s.activities.get thread = .calling request (.framing user header))

/-- The header of the call is written, and the thread is going to be told. -/
def frame (s : Shared α ρ n) (thread : Fin n) (request : Request) (user : Nat)
    (header : Header) : Shared α ρ n :=
  { (s.withHeap { s.client.heap with
        memory := header.write user s.client.heap.memory }).doing thread
      (.calling request (.answered (some user))) with
    written := s.written.insert user header }

include h hactivity

theorem Mirrors.entry_of_framing : s.Owns thread user ∧ s.register[user]? = some header ∧
    (s.settled m).heap.Entry user header := by
  have proceeds := h.proceeds thread
  rw [hactivity] at proceeds
  exact ⟨proceeds.1, proceeds.2, h.intact.entry proceeds.2⟩

theorem Mirrors.isolated_frame : s.Isolated thread (s.frame thread request user header) where
  kept howns _ hheader := ⟨howns, hheader⟩
  bytes := by
    intro other user' header' address howns hne hheader' hhas
    obtain ⟨hself, hheader, entry⟩ := h.entry_of_framing hactivity
    apply Header.byte_write entry.width_le
    by_contra hinside
    have hhasSelf : (header.block user).Has address :=
      Header.has_header entry.least entry.above (by omega) (by omega)
    refine (h.intact.apart hheader' hheader fun hsame => ?_).not_has hhas hhasSelf
    rw [hsame] at howns
    exact hne (howns.eq hself)

theorem Mirrors.frame : (s.frame thread request user header).Mirrors Sound Fit start m := by
  obtain ⟨hself, hheader, entry⟩ := h.entry_of_framing hactivity
  have hactivities : ∀ other, (s.frame thread request user header).activities.get other =
      if thread = other then .calling request (.answered (some user))
      else s.activities.get other := fun other => get_doing
  exact {
    intact := h.intact
    sizes := h.sizes
    contents := h.contents
    alone := h.alone
    owned := h.owned
    alike := by
      intro address hfree
      change (header.write user s.client.heap.memory).byte address = _
      by_cases hinside : user - Header.width ≤ address ∧ address < user
      · exact Header.byte_write_of_read entry.width_le entry.read hinside.1 hinside.2
      · rw [Header.byte_write entry.width_le (by omega)]
        apply h.alike
        intro other ⟨framed, hframed, hrange⟩
        by_cases hsame : thread = other
        · rw [← hsame, hactivity] at hframed
          cases hframed
          exact hinside hrange
        · exact hfree other ⟨framed, by rwa [hactivities, if_neg hsame], hrange⟩
    proceeds := by
      intro other
      rw [hactivities]
      split
      · trivial
      · exact h.proceeds other
    written := by
      intro user' header' hheader' hfree
      change (s.written.insert user header)[user']? = _
      rw [Record.getElem?_insert]
      split
      · rename_i hsame
        subst hsame
        exact hheader.symm.trans hheader'
      · rename_i hne
        apply h.written hheader'
        intro other hother
        by_cases hsame : thread = other
        · rw [← hsame, hactivity] at hother
          cases hother
          exact hne rfl
        · exact hfree other (by rwa [hactivities, if_neg hsame])
    told := by
      intro other
      rw [hactivities]
      split
      · rename_i hsame
        have htold := h.told thread
        rw [hactivity] at htold
        rw [← hsame]
        exact htold
      · exact h.told other }

end framed

theorem Mirrors.tell {result : Option Nat} (h : s.Mirrors Sound Fit start m)
    (hactivity : s.activities.get thread = .calling request (.answered result)) :
    ((s.doing thread .idle).tell thread (.served request result)).Mirrors Sound Fit start m := by
  have htold := h.told thread
  rw [hactivity] at htold
  refine h.going (fun other => ?_) (fun other => ?_) fun other => ?_
  · rw [get_doing]
    split
    · rename_i hsame
      rw [← hsame, hactivity]
      rfl
    · rfl
  · rw [get_doing]
    split
    · trivial
    · exact h.proceeds other
  · rw [get_doing, Record.get_set]
    split
    · rename_i hsame
      rw [← hsame, Activity.owed, List.append_nil]
      exact htold
    · exact h.told other

theorem Mirrors.proceeds_of_idle (h : s.Mirrors Sound Fit start m)
    (hintact : Intact Sound Fit (next.settled m').heap next.register)
    (isolated : s.Isolated thread next) (hactivities : next.activities = s.activities)
    (hactivity : s.activities.get thread = .idle) (other : Fin n) :
    next.Proceeds m' other (next.activities.get other) := by
  rw [hactivities]
  by_cases hsame : other = thread
  · rw [hsame, hactivity]
    trivial
  · exact h.proceeds_of_isolated hintact isolated hsame (h.proceeds other)

section written

variable {offset len : Nat} {f : Nat → UInt8} {client : Client (Framed α ρ)}

variable (h : s.Mirrors Sound Fit start m) (howns : s.Owns thread user)
  (hcovers : s.client.covers user offset len)

include h hcovers

theorem Mirrors.inside_of_write (hlow : user + offset ≤ address)
    (hhigh : address < user + offset + len) :
    ∃ header : Header, s.register[user]? = some header ∧ user ≤ address ∧
      address < user + header.size := by
  rcases Client.covers_iff.mp hcovers with hnone | ⟨size, hsize, hfits⟩
  · omega
  · obtain ⟨header, hheader, rfl⟩ := Option.map_eq_some_iff.mp ((h.sizes user).symm.trans hsize)
    exact ⟨header, hheader, by omega, by omega⟩

include howns in
theorem Mirrors.isolated_overwrite (hupdate : s.client.update user offset len f = .ok client)
    (deed : Deed) (hdeed : deed = .wrote user offset len f) :
    s.Isolated thread (s.overwrite thread client deed) where
  kept := by
    intro other user' header howner _ hheader
    refine ⟨howner, ?_⟩
    rw [register, deeds_snoc rfl, hdeed, Register.ofDeeds_wrote]
    exact hheader
  bytes := by
    intro other user' header' address howner hne hheader' hhas
    obtain ⟨-, rfl⟩ := Client.update_eq_ok.mp hupdate
    refine (Memory.byte_update ..).trans (if_neg fun ⟨hlow, hhigh⟩ => ?_)
    obtain ⟨header, hheader, hstart, hstop⟩ := h.inside_of_write hcovers hlow hhigh
    have hself := Header.has_user (i := address - user) (h.intact.entry hheader).above (by omega)
    rw [Nat.add_sub_cancel' hstart] at hself
    refine (h.intact.apart hheader' hheader fun hsame => ?_).not_has hhas hself
    rw [hsame] at howner
    exact hne (howner.eq howns)

include howns in
/-- What a thread writes into its block it writes into both memories. -/
theorem Mirrors.overwrite (contract : Contract Sound)
    (reliable : Provider.Reliable Fit)
    (hupdate : s.client.update user offset len f = .ok client)
    (hactivity : s.activities.get thread = .idle) :
    (s.overwrite thread client (.wrote user offset len f)).Mirrors Sound Fit start
      (m.update (user + offset) len f) := by
  obtain ⟨-, rfl⟩ := Client.update_eq_ok.mp hupdate
  have hsettled : (s.settled m).update user offset len f =
      .ok (s.settled (m.update (user + offset) len f)) :=
    Client.update_eq_ok.mpr ⟨hcovers, rfl⟩
  have hregister : (s.overwrite thread (s.client.withMemory
      ((Heap.memory s.client.heap).update (user + offset) len f))
      (.wrote user offset len f)).register = s.register := by
    rw [register, deeds_snoc rfl, Register.ofDeeds_wrote]
    rfl
  have hintact : Intact Sound Fit (s.settled (m.update (user + offset) len f)).heap s.register := by
    apply h.intact.write contract
    intro address hfree
    refine (Memory.byte_update ..).trans (if_neg fun ⟨hlow, hhigh⟩ => ?_)
    obtain ⟨header, hheader, hrange⟩ := h.inside_of_write hcovers hlow hhigh
    exact hfree user header hheader hrange
  have isolated := h.isolated_overwrite howns hcovers hupdate _ rfl
  exact {
    intact := by
      rw [hregister]
      exact hintact
    sizes := by
      rw [hregister]
      exact h.sizes
    contents := by
      rw [deeds_snoc rfl]
      have hfits : Fits Sound Fit (s.settled m).heap (s.settled m).held :=
        ⟨s.register, h.intact, h.sizes⟩
      exact .step h.contents
        (Client.step_update (meets_contract contract reliable) hfits hsettled)
    alone := by
      intro discreet
      rw [deeds_snoc rfl]
      exact .write (h.alone discreet) hsettled
    owned := by
      intro other user' howner
      rw [hregister]
      exact h.owned howner
    alike := by
      intro address hfree
      change ((s.client.heap.memory).update _ _ _).byte address = _
      rw [Memory.byte_update, Memory.byte_update]
      split
      · rfl
      · exact h.alike hfree
    proceeds := by
      apply h.proceeds_of_idle ?_ isolated rfl hactivity
      rw [hregister]
      exact hintact
    written := by
      intro user' header hheader hfree
      rw [hregister] at hheader
      exact h.written hheader hfree
    told := by
      intro other
      rw [deedsOf_snoc rfl, ← h.told other]
      change (s.tell thread _).told.get other ++ (s.activities.get other).owed = _
      rw [get_tell]
      split
      · rename_i hsame
        rw [← hsame, hactivity, Activity.owed, List.append_nil, List.append_nil]
      · rw [List.append_nil] }

end written

theorem Mirrors.handOver {receiver : Fin n} (h : s.Mirrors Sound Fit start m)
    (hactivity : s.activities.get thread = .idle) (howns : s.Owns thread user) :
    ({ s with owners := s.owners.insert user receiver } : Shared α ρ n).Mirrors Sound Fit start m ∧
      s.Isolated thread { s with owners := s.owners.insert user receiver } := by
  have isolated : s.Isolated thread { s with owners := s.owners.insert user receiver } := by
    refine ⟨fun {other user' header} howner hne hheader => ⟨?_, hheader⟩, fun _ _ _ _ => rfl⟩
    change (s.owners.insert user receiver)[user']? = _
    rw [Record.getElem?_insert, if_neg]
    · exact howner
    · intro hsame
      rw [← hsame] at howner
      exact hne (howner.eq howns)
  refine ⟨?_, isolated⟩
  exact {
    intact := h.intact
    sizes := h.sizes
    contents := h.contents
    alone := h.alone
    owned := by
      intro other user' howner
      change (s.owners.insert user receiver)[user']? = _ at howner
      rw [Record.getElem?_insert] at howner
      split at howner
      · rename_i hsame
        exact hsame ▸ h.owned howns
      · exact h.owned howner
    alike := h.alike
    proceeds := h.proceeds_of_idle h.intact isolated rfl hactivity
    written := h.written
    told := h.told }

theorem passed_of_answered (h : s.Mirrors Sound Fit start m)
    (hopened : Call.opened m request = .answered none) :
    Passed Sound Fit s.client.heap m s.register request ⟨.answered none, s.client.heap, []⟩ m where
  served := by
    apply h.intact.answered
    cases hkeeps : request.releases with
    | false => exact Register.after_refused hkeeps
    | true =>
      cases request with
      | release block =>
        cases block with
        | none => rfl
        | some user => cases hopened
      | _ => cases hkeeps
  call := .inl rfl
  alike hsame _ := hsame
  spares _ _ _ _ := rfl
  alone _ := serve_of_answered hopened

section steps

variable (contract : Contract Sound) (reliable : Provider.Reliable Fit)
  (h : s.Mirrors Sound Fit start m)

include contract reliable h

theorem Mirrors.advance {call : Call}
    (hactivity : s.activities.get thread = .calling request call) :
    ∃ next m', s.advance thread request call = .ok next ∧ next.Mirrors Sound Fit start m' ∧
      s.Isolated thread next := by
  have proceeds := h.proceeds thread
  rw [hactivity] at proceeds
  have hframed : call.framed? = none → (s.activities.get thread).framed? = none := by
    rw [hactivity]
    exact id
  cases call with
  | requested asked =>
    obtain ⟨rfl, hwords, hsubject⟩ := proceeds
    have hopened := h.opened_eq (hframed rfl) hsubject
    rcases Call.opened_cases m asked with hanswered | ⟨critical, hentering, -⟩
    · have passed := passed_of_answered h hanswered
      refine ⟨_, m, ?_, h.decide hsubject passed (hframed rfl) (by rw [hactivity]; rfl) hwords,
        h.isolated_decide hsubject passed⟩
      simp only [Shared.advance, Framed.step, hopened, hanswered, pure_eq_ok, ok_bind]
    · refine ⟨s.doing thread (.calling asked (.entering critical)), m, ?_,
        h.doing (hframed rfl) rfl (by rw [hactivity]; rfl) ⟨hentering, hwords, hsubject⟩,
        fun howns _ hheader => ⟨howns, hheader⟩, fun _ _ _ _ => rfl⟩
      simp only [Shared.advance, Framed.step, hopened, hentering, pure_eq_ok, ok_bind]
      rfl
  | entering critical =>
    obtain ⟨hopened, hwords, hsubject⟩ := proceeds
    have hregister : ∀ user ∈ request.subject?, user ∈ s.register := fun user huser =>
      Record.mem_iff.mpr (h.owned (hsubject user huser))
    obtain ⟨reply, m', henter, passed⟩ := h.intact.enter contract reliable
      (h.behind (hframed rfl) hsubject) hopened hregister
    refine ⟨_, m', ?_, h.decide hsubject passed (hframed rfl) (by rw [hactivity]; rfl) hwords,
      h.isolated_decide hsubject passed⟩
    simp only [Shared.advance, Framed.step, henter, ok_bind]
    rcases passed.call with hcall | ⟨user, hcall⟩ <;> rw [hcall] <;> rfl
  | framing user header =>
    exact ⟨_, m, rfl, h.frame hactivity, h.isolated_frame hactivity⟩
  | answered result =>
    exact ⟨_, m, rfl, h.tell hactivity, fun howns _ hheader => ⟨howns, hheader⟩,
      fun _ _ _ _ => rfl⟩

/-- What the users allow is done, and keeps up the memory that has all headers. -/
theorem Mirrors.perform {move : Move n} (hallows : s.Allows move) :
    ∃ next m', s.perform move = .ok next ∧ next.Mirrors Sound Fit start m' ∧
      s.Isolated move.thread next := by
  cases move with
  | start thread request =>
    obtain ⟨hactivity, hwords, hsubject⟩ := hallows
    refine ⟨_, m, rfl, h.doing ?_ rfl ?_ ⟨rfl, hwords, hsubject⟩,
      fun howns _ hheader => ⟨howns, hheader⟩, fun _ _ _ _ => rfl⟩
    · rw [hactivity]
      rfl
    · rw [hactivity]
      rfl
  | advance thread =>
    cases hactivity : s.activities.get thread with
    | idle => exact absurd hactivity hallows
    | calling request call =>
      rw [Shared.perform, hactivity]
      exact h.advance contract reliable hactivity
  | write thread user offset len f =>
    obtain ⟨hactivity, howns, hcovers⟩ := hallows
    obtain ⟨client, hupdate⟩ : ∃ client, s.client.update user offset len f = .ok client :=
      ⟨_, Client.update_eq_ok.mpr ⟨hcovers, rfl⟩⟩
    refine ⟨_, _, ?_, h.overwrite howns hcovers contract reliable hupdate hactivity,
      h.isolated_overwrite howns hcovers hupdate _ rfl⟩
    rw [Shared.perform, hupdate, ok_bind, pure_eq_ok]
  | handOver thread user receiver =>
    obtain ⟨hactivity, howns⟩ := hallows
    obtain ⟨mirrors, isolated⟩ := h.handOver hactivity howns
    exact ⟨_, m, rfl, mirrors, isolated⟩

end steps

end RegionHeap.Framed.Shared
