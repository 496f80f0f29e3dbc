import RegionHeap.Proofs.Framed.Integrity

/-!
# A framed heap keeps the contract of a heap

Of the allocator and the provider nothing is used but their own contracts. A
framed heap is intact when it has integrity and they are in states in which
these contracts hold. Every request about nothing or about a held block is then
answered, leaves the heap intact, and does to the bytes of users what it should:
the header lies between the base of a block and the bytes of its user, so what
the allocator clears or copies there is not in any user's way.
-/
namespace RegionHeap.Framed

open Checked
open Growth (Provider)
open Sized (Acquired Allocator Block Contract Exchange Resized)

variable {α ρ : Type} [Allocator α]

structure Intact (Sound : α → ρ → Memory → Prop) (Fit : ρ → Prop) (heap : Framed α ρ)
    (register : Register) : Prop extends heap.Integrity register where
  sound : Sound heap.allocator heap.provider heap.memory
  fit : Fit heap.provider

structure Served (Sound : α → ρ → Memory → Prop) (Fit : ρ → Prop) (heap : Framed α ρ)
    (register : Register) (request : Request) (reply : Reply (Option Nat) (Framed α ρ)) :
    Prop where
  met : ∀ {held}, register.Sizes held →
    request.Met held heap.memory reply.answer reply.state.memory
  intact : reply.state.Intact Sound Fit (register.after request reply.answer)

variable {Sound : α → ρ → Memory → Prop} {Fit : ρ → Prop} {heap : Framed α ρ}
  {register : Register} {request : Request}

namespace Intact

theorem refused (h : heap.Intact Sound Fit register)
    (hsame : register.after request none = register) {s' : α} {m' : Memory} {provider : ρ}
    (events : List Event)
    (hex : Exchange none none heap.allocator heap.memory s' m') (hsound : Sound s' provider m')
    (hfit : Fit provider) :
    Served Sound Fit heap register request
      ⟨none, { heap with allocator := s', memory := m', provider := provider }, events⟩ where
  met hsizes := {
    kept := by
      intro user size huser _ i hi
      obtain ⟨header, hheader, rfl⟩ := Option.map_eq_some_iff.mp ((hsizes user).symm.trans huser)
      have entry := h.entry hheader
      exact hex.bytes entry.live (by simp) (Header.has_user entry.above hi)
    fresh := by simp
    silent := fun _ => rfl
    zeroed := by simp
    resized := by simp
    aligned := by simp }
  intact := by
    rw [hsame]
    have hnone : Exchange (register.block? none) none heap.allocator heap.memory s' m' := hex
    exact ⟨h.without hnone, hsound, hfit⟩

theorem answered (h : heap.Intact Sound Fit register)
    (hsame : register.after request none = register) :
    Served Sound Fit heap register request ⟨none, heap, []⟩ :=
  h.refused hsame [] (.refl ..) h.sound h.fit

section granted

variable (h : heap.Intact Sound Fit register) (hkeeps : request.releases = false)
  {header : Header} (hheader : register.headerFor request = header) (proper : header.Proper)
  {base : Nat} {s' : α} {m' : Memory} {provider : ρ}
  (hex : Exchange (register.block? request.subject?)
    (some ⟨base, header.size + header.align, header.align⟩) heap.allocator heap.memory s' m')

include h hkeeps hheader proper hex

theorem met_granted
    (hzeroed : request.zeroes → ∀ {i}, i < request.size →
      m'.byte (base + header.align + i) = 0)
    (hresized : ∀ {user} {old : Header}, request.subject? = some user →
      register[user]? = some old → ∀ {i}, i < min old.size request.size →
      m'.byte (base + header.align + i) = heap.memory.byte (user + i))
    {held : Std.TreeMap Nat Nat} (hsizes : register.Sizes held) :
    request.Met held heap.memory (some (base + header.align))
      (header.write (base + header.align) m') := by
  have hsize : header.size = request.size := by rw [← hheader]; rfl
  have hbytes : ∀ i, (header.write (base + header.align) m').byte (base + header.align + i) =
      m'.byte (base + header.align + i) := fun i =>
    Header.byte_write (Nat.le_trans proper.least (Nat.le_add_left _ _))
      (.inl (Nat.le_add_right _ _))
  constructor
  case kept =>
    intro user size huser hne i hi
    obtain ⟨old, hold, rfl⟩ := Option.map_eq_some_iff.mp ((hsizes user).symm.trans huser)
    rw [Request.ended?_some hkeeps] at hne
    exact h.toIntegrity.byte_granted proper hex hold hne (Header.has_user (h.entry hold).above hi)
  case fresh =>
    intro user huser
    obtain rfl := Option.some.inj huser
    by_contra hnot
    rw [not_or] at hnot
    obtain ⟨size, hheld⟩ := Option.ne_none_iff_exists'.mp hnot.1
    obtain ⟨old, hold, -⟩ := Option.map_eq_some_iff.mp ((hsizes _).symm.trans hheld)
    exact h.toIntegrity.ne_new proper hex hold hnot.2 rfl
  case silent => simp [hkeeps]
  case zeroed =>
    intro hzeroes user huser
    obtain rfl := Option.some.inj huser
    have hword := proper.word
    exact ⟨by omega, fun hi => (hbytes _).trans (hzeroed hzeroes hi)⟩
  case resized =>
    intro old size user hrequest huser oldSize hheld i hi
    obtain rfl := Option.some.inj huser
    obtain ⟨oldHeader, hold, rfl⟩ := Option.map_eq_some_iff.mp ((hsizes old).symm.trans hheld)
    subst hrequest
    exact (hbytes _).trans (hresized rfl hold hi)
  case aligned =>
    intro align user hwish hpower huser
    obtain rfl := Option.some.inj huser
    have halign : header.align = Header.alignFor align := by
      rw [← hheader, Register.headerFor, Register.alignFor_of_wish hwish]
    have hbase := hex.aligned rfl
    refine Nat.mod_eq_zero_of_dvd (Nat.dvd_trans (Header.dvd_alignFor hpower) ?_)
    rw [← halign]
    exact Nat.dvd_add (Nat.dvd_of_mod_eq_zero hbase) (Nat.dvd_refl _)

variable [Provider ρ] (contract : Contract Sound)

include contract

theorem intact_granted (hsound : Sound s' provider m') (hfit : Fit provider) :
    Framed.Intact Sound Fit { heap with
        allocator := s'
        memory := header.write (base + header.align) m'
        provider := provider }
      (register.after request (some (base + header.align))) := by
  have hafter : register.after request (some (base + header.align)) =
      (register.without request.subject?).insert (base + header.align) header := by
    rw [Register.after, Request.ended?_some hkeeps, hheader]
  have hlive := (hex.live _).mpr (.inl rfl)
  rw [hafter]
  refine ⟨h.toIntegrity.granted proper hex, contract.frame hsound ?_, hfit⟩
  intro address hfree
  apply Header.byte_write (Nat.le_trans proper.least (Nat.le_add_left _ _))
  by_contra hinside
  rw [← Header.block_add] at hlive
  exact hfree _ hlive (Header.has_header proper.least (Nat.le_add_left _ _) (by omega) (by omega))

end granted

variable [Provider ρ]

/-- Whatever the allocator has answered, the call has been served when the header is written. -/
theorem settled (contract : Contract Sound) (h : heap.Intact Sound Fit register)
    (hkeeps : request.releases = false) {header : Header}
    (hheader : register.headerFor request = header) (proper : header.Proper)
    {reply : Reply (Outcome α) ρ}
    (hex : Exchange (reply.answer.base.bind fun _ => register.block? request.subject?)
      (reply.answer.base.map (⟨·, header.size + header.align, header.align⟩))
      heap.allocator heap.memory reply.answer.state reply.answer.memory)
    (hsound : Sound reply.answer.state reply.state reply.answer.memory) (hfit : Fit reply.state)
    (hzeroed : request.zeroes → ∀ {base}, reply.answer.base = some base → ∀ {i},
      i < request.size → reply.answer.memory.byte (base + header.align + i) = 0)
    (hresized : ∀ {user} {old : Header}, request.subject? = some user →
      register[user]? = some old → ∀ {base}, reply.answer.base = some base → ∀ {i},
      i < min old.size request.size →
      reply.answer.memory.byte (base + header.align + i) = heap.memory.byte (user + i)) :
    Served Sound Fit heap register request (heap.settled header reply) := by
  obtain ⟨⟨base, s', m'⟩, provider, events⟩ := reply
  cases base with
  | none => exact h.refused (Register.after_refused hkeeps) events hex hsound hfit
  | some base =>
    exact ⟨h.met_granted hkeeps hheader proper hex (fun hz => hzeroed hz rfl)
      (fun hsubject hold => hresized hsubject hold rfl),
      h.intact_granted hkeeps hheader proper hex contract hsound hfit⟩

section outcomes

variable (contract : Contract Sound) (h : heap.Intact Sound Fit register)

section placed

variable {reply : Reply (Outcome α) ρ}
  (hsound : Sound reply.answer.state reply.state reply.answer.memory) (hfit : Fit reply.state)

include contract h hsound hfit

theorem acquired (hnew : request.subject? = none) (hkeeps : request.releases = false)
    (hword : request.size + register.alignFor request < Word.bound)
    (acquired : Acquired request.zeroes (request.size + register.alignFor request)
      (register.alignFor request) heap.allocator heap.memory reply.answer) :
    Served Sound Fit heap register request
      (heap.settled (register.headerFor request) reply) := by
  have hnone : (reply.answer.base.bind fun _ => register.block? request.subject?) = none := by
    rw [hnew]
    cases reply.answer.base <;> rfl
  refine h.settled contract hkeeps rfl (Register.proper_headerFor hnew hword) ?_ hsound hfit ?_ ?_
  · rw [hnone]
    exact acquired.exchange
  · intro hzeroes base hbase i hi
    rw [Nat.add_assoc]
    exact acquired.zeroed hzeroes hbase (by simp only [Register.headerFor]; omega)
  · simp [hnew]

theorem resized {user size : Nat} {old : Header} (hold : register[user]? = some old)
    (hword : size + old.align < Word.bound)
    (resized : Resized (old.block user) (size + old.align) heap.allocator heap.memory
      reply.answer) :
    Served Sound Fit heap register (.resize (some user) size)
      (heap.settled ⟨size, old.align⟩ reply) := by
  have entry := h.entry hold
  have proper : Header.Proper ⟨size, old.align⟩ := ⟨entry.power, entry.least, hword⟩
  have hheader : register.headerFor (.resize (some user) size) = ⟨size, old.align⟩ := by
    rw [Register.headerFor, Register.alignFor_resize hold, Request.size]
  refine h.settled contract rfl hheader proper ?_ hsound hfit ?_ ?_
  · have hex := resized.exchange
    rw [Request.subject?, Register.block?_of_some hold]
    cases hbase : reply.answer.base <;> simpa [hbase, Header.block] using hex
  · simp [Request.zeroes]
  · intro other header hsubject hother base hbase i hi
    obtain rfl := Option.some.inj hsubject
    obtain rfl := Option.some.inj (hold.symm.trans hother)
    have hkept := resized.kept hbase (i := old.align + i)
      (by simp only [Header.block, Request.size] at *; omega)
    have habove := entry.above
    have huser : (old.block user).base + (old.align + i) = user + i := by
      simp only [Header.block]
      omega
    rwa [huser, ← Nat.add_assoc] at hkept

end placed

omit [Provider ρ] in
theorem released (h : heap.Intact Sound Fit register) {user : Nat} {old : Header}
    (hold : register[user]? = some old) {s' : α} {m' : Memory}
    (hex : Exchange (some (old.block user)) none heap.allocator heap.memory s' m')
    (hsound : Sound s' heap.provider m') :
    Served Sound Fit heap register (.release (some user))
      ⟨none, { heap with allocator := s', memory := m' }, []⟩ where
  met hsizes := {
    kept := by
      intro other size hother hne i hi
      obtain ⟨header, hheader, rfl⟩ := Option.map_eq_some_iff.mp ((hsizes other).symm.trans hother)
      have hstays := h.ne_block? hheader hne
      rw [Request.ended?, Register.block?_of_some hold] at hstays
      exact hex.bytes (h.entry hheader).live hstays
        (Header.has_user (h.entry hheader).above hi)
    fresh := by simp
    silent := fun _ => rfl
    zeroed := by simp
    resized := by simp
    aligned := by simp }
  intact := by
    rw [← Register.block?_of_some hold] at hex
    exact ⟨h.toIntegrity.without hex, hsound, h.fit⟩

end outcomes

variable (contract : Contract Sound) (reliable : Provider.Reliable Fit)
  (h : heap.Intact Sound Fit register)

include contract reliable h

theorem serve_new (hnew : request.subject? = none) (hkeeps : request.releases = false)
    (hword : request.size + register.alignFor request < Word.bound) :
    ∃ reply, heap.serve request = .ok reply ∧
      Served Sound Fit heap register request reply := by
  have proper := Register.proper_headerFor hnew hword
  obtain ⟨hasks, hruns⟩ := contract.acquire request.zeroes h.sound hword proper.power
  obtain ⟨reply, hrun, hfit⟩ := hasks.run_returns reliable h.fit heap.level
  obtain ⟨acquired, hsound⟩ := hruns hrun
  refine ⟨heap.settled (register.headerFor request) reply, ?_,
    h.acquired contract hsound hfit hnew hkeeps hword acquired⟩
  rw [serve_new_eq register hnew hkeeps hword]
  exact bind_eq_ok.mpr ⟨reply, hrun, rfl⟩

theorem serve_resize {user size : Nat} {old : Header} (hold : register[user]? = some old)
    (hword : size + old.align < Word.bound) :
    ∃ reply, heap.serve (.resize (some user) size) = .ok reply ∧
      Served Sound Fit heap register (.resize (some user) size) reply := by
  have entry := h.entry hold
  obtain ⟨dialogue, hdialogue, hasks, hruns⟩ := contract.resize h.sound entry.live hword
  obtain ⟨reply, hrun, hfit⟩ := hasks.run_returns reliable h.fit heap.level
  obtain ⟨resized, hsound⟩ := hruns hrun
  refine ⟨heap.settled ⟨size, old.align⟩ reply, ?_,
    h.resized contract hsound hfit hold hword resized⟩
  rw [serve_resize_eq entry.read entry.blockOf_eq_ok hword hdialogue]
  exact bind_eq_ok.mpr ⟨reply, hrun, rfl⟩

omit reliable in
theorem serve_release {user : Nat} {old : Header} (hold : register[user]? = some old) :
    ∃ reply, heap.serve (.release (some user)) = .ok reply ∧
      Served Sound Fit heap register (.release (some user)) reply := by
  have entry := h.entry hold
  obtain ⟨s', m', hrelease, hex, hsound⟩ := contract.release h.sound entry.live
  have hopened : Call.opened heap.memory (.release (some user)) =
      .entering (.release user old) := by
    rw [← entry.read, Call.opened]
  exact ⟨_, serve_of_release hopened entry.blockOf_eq_ok hrelease, h.released hold hex hsound⟩

/-- Every request about nothing or about a held block is served. -/
theorem serve (hsubject : ∀ user ∈ request.subject?, user ∈ register) :
    ∃ reply, heap.serve request = .ok reply ∧
      Served Sound Fit heap register request reply := by
  cases hkeeps : request.releases with
  | true =>
    cases request with
    | release block =>
      cases block with
      | none => exact ⟨_, serve_of_answered rfl, h.answered rfl⟩
      | some user =>
        obtain ⟨old, hold⟩ := Record.mem_iff.mp (hsubject user rfl)
        exact h.serve_release contract hold
    | _ => cases hkeeps
  | false =>
    by_cases hword : request.size + register.alignFor request < Word.bound
    · rcases Request.new_or_resize hkeeps with hnew | ⟨user, size, rfl⟩
      · exact h.serve_new contract reliable hnew hkeeps hword
      · obtain ⟨old, hold⟩ := Record.mem_iff.mp (hsubject user rfl)
        rw [Register.alignFor_resize hold] at hword
        exact h.serve_resize contract reliable hold hword
    · exact ⟨_, h.serve_of_overflow hkeeps hsubject (Nat.le_of_not_lt hword),
        h.answered (Register.after_refused hkeeps)⟩

omit reliable in
theorem write {m : Memory}
    (hbytes : ∀ address, (∀ (user : Nat) header, register[user]? = some header →
      ¬(user ≤ address ∧ address < user + header.size)) →
      m.byte address = heap.memory.byte address) :
    Framed.Intact Sound Fit { heap with memory := m } register := by
  refine ⟨h.toIntegrity.write hbytes, contract.frame h.sound ?_, h.fit⟩
  intro address hfree
  refine hbytes address fun user header hheader ⟨hstart, hstop⟩ => ?_
  have entry := h.entry hheader
  have hhas := Header.has_user (i := address - user) entry.above (by omega)
  rw [Nat.add_sub_cancel' hstart] at hhas
  exact hfree _ entry.live hhas

end Intact

/-- What an intact heap has on its register may be held by a client. -/
def Fits (Sound : α → ρ → Memory → Prop) (Fit : ρ → Prop) (heap : Framed α ρ)
    (held : Std.TreeMap Nat Nat) : Prop :=
  ∃ register : Register, heap.Intact Sound Fit register ∧ register.Sizes held

theorem meets_contract [Provider ρ] (contract : Contract Sound)
    (reliable : Provider.Reliable Fit) : Heap.Contract (Fits Sound Fit) where
  serve := by
    intro heap held request ⟨register, intact, sizes⟩ _ hsubject
    have hregister : ∀ user ∈ request.subject?, user ∈ register := fun user huser =>
      Record.mem_iff.mpr (sizes.mem (hsubject user huser))
    obtain ⟨reply, hreply, served⟩ := intact.serve contract reliable hregister
    exact ⟨reply, hreply, served.met sizes,
      _, served.intact, sizes.after (served.met sizes).silent⟩
  apart := by
    intro heap held ⟨register, intact, sizes⟩ a b sizeA sizeB ha hb hne i j hi hj
    obtain ⟨headerA, hheaderA, rfl⟩ := Option.map_eq_some_iff.mp ((sizes a).symm.trans ha)
    obtain ⟨headerB, hheaderB, rfl⟩ := Option.map_eq_some_iff.mp ((sizes b).symm.trans hb)
    exact intact.ne_address hheaderA hheaderB hne hi hj
  memory_withMemory := rfl
  write := by
    intro heap held m ⟨register, intact, sizes⟩ hbytes
    refine ⟨register, intact.write contract fun address hfree => hbytes address ?_, sizes⟩
    intro user size huser
    obtain ⟨header, hheader, rfl⟩ := Option.map_eq_some_iff.mp ((sizes user).symm.trans huser)
    exact hfree user header hheader

/-- Every block of a framed heap has the smallest alignment at least. -/
theorem aligned_of_fits {heap : Framed α ρ} {held : Std.TreeMap Nat Nat}
    (h : Fits Sound Fit heap held) {block : Nat} (hblock : block ∈ held) :
    block % Word.minAlign = 0 := by
  obtain ⟨register, intact, sizes⟩ := h
  obtain ⟨header, hheader⟩ := sizes.mem hblock
  have entry := intact.entry hheader
  have hdvd : Word.minAlign ∣ header.align :=
    Word.dvd_of_isPowerOfTwo (by decide) entry.power entry.least
  exact Nat.mod_eq_zero_of_dvd (Nat.dvd_trans hdvd (Nat.dvd_of_mod_eq_zero entry.aligned))

/-- Whatever is answered is held afterwards, so it is aligned like every other block. -/
theorem granular [Provider ρ] (contract : Contract Sound) (reliable : Provider.Reliable Fit) :
    Heap.Granular (Fits Sound Fit) := by
  intro heap held request reply block hfits hwords hheld hplain hserve hanswer
  obtain ⟨same, hsame, -, hnext⟩ := (meets_contract contract reliable).serve hfits hwords hheld
  obtain rfl := Except.ok.inj (hserve.symm.trans hsame)
  refine aligned_of_fits hnext ?_
  rw [hanswer]
  cases request with
  | allocate size => exact Std.TreeMap.mem_insert_self
  | resize old size => cases old <;> exact Std.TreeMap.mem_insert_self
  | _ => cases hplain

end RegionHeap.Framed
