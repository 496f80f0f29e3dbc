import RegionHeap.Proofs.Ledger
import RegionHeap.Proofs.Replay.Vigilance

/-!
# Whose blocks a replay uses

A replay has no record of blocks but its slots. At every time these hold exactly
the blocks that the heap has handed out and not got back, each in one slot, and
in the end there are none. This takes nothing of the heap but that it answers
with nothing or with a block that is not in use: it may refuse what it likes, and
nothing is asked of the bytes. A replay that goes past the end of a block, for
its account is too long, is followed further: the block is live then, and
whatever comes of it, the slots stay right as long as the heap answers so.
-/
namespace RegionHeap

open Checked

namespace Replay

variable {σ : Type} [Heap σ] {Fits : σ → Std.TreeMap Nat Nat → Prop} {replay next : Replay σ}
  {client : Client σ} {slot : Fin 64} {block : Option Nat} {size offset count : Nat}
  {expected : UInt8} {request : Request} {reply : Reply (Option Nat) (Client σ)} {fault : Fault}
  {operation : Operation} {act : Act} {before : List Act} {heap : σ}

/-- The blocks in the slots are those that are held, and each of them is in one slot. -/
structure Owns (Fits : σ → Std.TreeMap Nat Nat → Prop) (replay : Replay σ) : Prop where
  fits : Fits replay.client.heap replay.client.held
  distinct : ∀ {a b : Fin 64} {block}, replay.slots.get a = some block →
    replay.slots.get b = some block → a = b
  held : ∀ block, block ∈ replay.client.held ↔ ∃ slot : Fin 64, replay.slots.get slot = some block

/-- Nothing is on account for an empty slot. -/
def Tidy (replay : Replay σ) : Prop :=
  ∀ slot : Fin 64, replay.slots.get slot = none → replay.sizes.get slot = 0

/-- The block in the slot ends before what its account says is looked at or filled. -/
def Short (replay : Replay σ) (slot : Fin 64) : Prop :=
  ∃ block ∈ replay.slots.get slot, ∃ total, replay.client.held[block]? = some total ∧
    total < min (replay.sizes.get slot) window

/-- The replay with other sizes on account. -/
def withSizes (replay : Replay σ) (sizes : Vector Nat 64) : Replay σ :=
  { replay with sizes := sizes }

/-- The replay with nothing on account, which has nothing to look at and nothing to fill. -/
def unaccounted (replay : Replay σ) : Replay σ := replay.withSizes (Vector.replicate 64 0)

omit [Heap σ] in
theorem Owns.withSizes (owns : replay.Owns Fits) (sizes : Vector Nat 64) :
    (replay.withSizes sizes).Owns Fits := ⟨owns.fits, owns.distinct, owns.held⟩

omit [Heap σ] in
theorem tidy_unaccounted (replay : Replay σ) : replay.unaccounted.Tidy := fun _ _ =>
  Record.get_replicate 0

omit [Heap σ] in
theorem not_short (hsize : replay.sizes.get slot = 0) : ¬replay.Short slot := by
  rintro ⟨block, -, total, -, hshort⟩
  omega

omit [Heap σ] in
theorem Tidy.settle (tidy : replay.Tidy) (hsize : block = none → size = 0) :
    (replay.settle client slot block size).Tidy := by
  intro other hnone
  rw [slots_settle] at hnone
  rw [sizes_settle]
  split at hnone
  · rename_i hslot
    rw [if_pos hslot]
    exact hsize hnone
  · rename_i hne
    rw [if_neg hne]
    exact tidy other hnone

section looks

/-- A look at a block fails because a byte is another one, or because the block ends before. -/
theorem expectBytes_error {block total : Nat} (htotal : client.held[block]? = some total)
    (h : expectBytes client block expected offset count = .error fault) :
    fault = .assertion ∨ fault = .strayAccess ∧ total < offset + count := by
  induction count generalizing offset with
  | zero => cases h
  | succ count ih =>
    by_cases hinside : offset < total
    · rw [expectBytes_succ htotal hinside, Checked.require] at h
      split at h
      · rcases ih h with hfault | ⟨hfault, hshort⟩
        · exact .inl hfault
        · exact .inr ⟨hfault, by omega⟩
      · exact .inl (Except.error.inj h).symm
    · have hcovers : ¬client.covers block offset 1 := by
        rw [Client.covers_iff, htotal]
        simp only [Nat.one_ne_zero, Option.some.injEq, exists_eq_left', false_or]
        omega
      rw [expectBytes, Client.read, Checked.require, if_neg hcovers] at h
      exact .inr ⟨(Except.error.inj h).symm, by omega⟩

theorem check_nothing (client : Client σ) (block : Option Nat) (expected : UInt8) :
    check client block 0 expected = .ok () := by
  cases block with
  | none => rfl
  | some block => rfl

theorem check_error {block total : Nat} (htotal : client.held[block]? = some total)
    (h : check client (some block) size expected = .error fault) :
    fault = .assertion ∨ fault = .strayAccess ∧ total < min size window := by
  rw [← Nat.zero_add (min size window)]
  exact expectBytes_error htotal h

theorem look_unaccounted (replay : Replay σ) (slot : Fin 64) :
    replay.unaccounted.look slot = .ok () := by
  rw [look, unaccounted, withSizes, Record.get_replicate]
  exact check_nothing _ _ _

theorem Owns.look_error (owns : replay.Owns Fits) (tidy : replay.Tidy)
    (h : replay.look slot = .error fault) :
    fault = .assertion ∨ fault = .strayAccess ∧ replay.Short slot := by
  rw [look] at h
  cases hblock : replay.slots.get slot with
  | none =>
    rw [tidy slot hblock, hblock] at h
    cases h
  | some block =>
    obtain ⟨total, htotal⟩ := Record.mem_iff.mp ((owns.held block).mpr ⟨slot, hblock⟩)
    rw [hblock] at h
    rcases check_error htotal h with hfault | ⟨hfault, hshort⟩
    · exact .inl hfault
    · exact .inr ⟨hfault, block, hblock, total, htotal, hshort⟩

end looks

section serves

variable (answers : Heap.Answers Fits) (owns : replay.Owns Fits) (hwords : request.Words)
  (hsubject : ∀ block ∈ request.subject?, replay.slots.get slot = some block)

include answers owns hwords hsubject

theorem Owns.serve_returns : ∃ reply, replay.client.serve request = .ok reply := by
  have hheld : ∀ block ∈ request.subject?, block ∈ replay.client.held := fun block hblock =>
    (owns.held block).mpr ⟨slot, hsubject block hblock⟩
  obtain ⟨inner, hinner, -⟩ := answers.serve owns.fits hwords hheld
  exact ⟨_, Client.serve_eq_ok.mpr ⟨hheld, inner, hinner, rfl⟩⟩

theorem Owns.served (hreply : replay.client.serve request = .ok reply) :
    Fits reply.state.heap reply.state.held ∧ (request.releases → reply.answer = none) ∧
      (∀ address, address ∈ reply.state.held ↔ reply.answer = some address ∨
        request.ended? reply.answer ≠ some address ∧ address ∈ replay.client.held) ∧
      ∀ other address, slot ≠ other → replay.slots.get other = some address →
        request.ended? reply.answer ≠ some address ∧ reply.answer ≠ some address := by
  obtain ⟨hheld, inner, hinner, rfl⟩ := Client.serve_eq_ok.mp hreply
  obtain ⟨same, hsame, hfresh, hsilent, hfits⟩ := answers.serve owns.fits hwords hheld
  obtain rfl : inner = same := Except.ok.inj (hinner.symm.trans hsame)
  refine ⟨hfits, hsilent, fun _ => Client.mem_recordAfter hsilent, ?_⟩
  intro other address hne haddress
  have hsubjectNe : request.subject? ≠ some address := fun heq =>
    hne (owns.distinct (hsubject address heq) haddress)
  refine ⟨mt Request.subject?_of_ended? hsubjectNe, fun hanswer => ?_⟩
  rcases hfresh address hanswer with hfree | hold
  · exact hfree ((owns.held address).mpr ⟨other, haddress⟩)
  · exact hsubjectNe hold

/-- The slots stay right if the slot gets what is answered, or keeps what it had unless its
life has ended. -/
theorem Owns.settle (hreply : replay.client.serve request = .ok reply)
    (hblock : ∀ address, block = some address ↔ reply.answer = some address ∨
      request.ended? reply.answer ≠ some address ∧ replay.slots.get slot = some address)
    (size : Nat) :
    (replay.settle reply.state slot block size).Owns Fits := by
  obtain ⟨hfits, -, hheld, hother⟩ := owns.served answers hwords hsubject hreply
  have hapart : ∀ {other address}, slot ≠ other → replay.slots.get other = some address →
      block ≠ some address := by
    intro other address hne haddress hsame
    rcases (hblock address).mp hsame with hanswer | ⟨-, hslot⟩
    · exact (hother other address hne haddress).2 hanswer
    · exact hne (owns.distinct hslot haddress)
  constructor
  case fits => exact hfits
  case distinct =>
    intro a b address ha hb
    rw [slots_settle] at ha hb
    split at ha <;> split at hb
    · rename_i hslot hslot'
      exact hslot.symm.trans hslot'
    · rename_i hne
      exact absurd ha (hapart hne hb)
    · rename_i hne _
      exact absurd hb (hapart hne ha)
    · exact owns.distinct ha hb
  case held =>
    intro address
    simp only [slots_settle]
    refine (hheld address).trans ?_
    rw [owns.held]
    constructor
    · intro h
      by_cases hhere : block = some address
      · exact ⟨slot, by rw [if_pos rfl, hhere]⟩
      · obtain ⟨hnew, hgone⟩ := not_or.mp (mt (hblock address).mpr hhere)
        obtain ⟨hstays, other, hslot⟩ := h.resolve_left hnew
        have hne : slot ≠ other := fun heq => hgone ⟨hstays, heq ▸ hslot⟩
        exact ⟨other, by rw [if_neg hne, hslot]⟩
    · intro ⟨other, h⟩
      split at h
      · exact ((hblock address).mp h).imp_right fun ⟨hstays, hslot⟩ => ⟨hstays, slot, hslot⟩
      · rename_i hne
        exact .inr ⟨(hother other address hne h).1, other, h⟩

end serves

theorem Owns.refill {block : Nat} (answers : Heap.Answers Fits) (owns : replay.Owns Fits)
    (hblock : replay.slots.get slot = some block) :
    (∃ next, replay.refill slot block = .ok next ∧ next.Owns Fits ∧
      next.client.held = replay.client.held ∧ next.slots = replay.slots ∧
      next.sizes = replay.sizes) ∨
    replay.refill slot block = .error .strayAccess ∧ replay.Short slot := by
  obtain ⟨total, htotal⟩ := Record.mem_iff.mp ((owns.held block).mpr ⟨slot, hblock⟩)
  by_cases hcovers : replay.client.covers block 0 (min (replay.sizes.get slot) window)
  · obtain ⟨filled, hfill⟩ : ∃ filled, replay.client.fill block 0
        (min (replay.sizes.get slot) window) (fillByte slot) = .ok filled :=
      ⟨_, Client.update_eq_ok.mpr ⟨hcovers, rfl⟩⟩
    refine .inl ⟨{ replay with client := filled }, ?_, ?_, ?_, rfl, rfl⟩
    · rw [Replay.refill, hfill, ok_bind, pure_eq_ok]
    · obtain ⟨m, rfl, hbytes⟩ := Client.eq_withMemory_of_update hfill
      exact ⟨answers.write owns.fits hbytes, owns.distinct, owns.held⟩
    · exact Client.held_of_update hfill
  · refine .inr ⟨?_, block, hblock, total, htotal, ?_⟩
    · have hrequire : Checked.require (replay.client.covers block 0
          (min (replay.sizes.get slot) window)) .strayAccess = .error .strayAccess :=
        if_neg hcovers
      rw [Replay.refill, Client.fill, Client.update, hrequire]
      rfl
    · rw [Client.covers_iff, htotal] at hcovers
      simp only [Option.some.injEq, exists_eq_left', Nat.zero_add] at hcovers
      omega

section acts

variable (answers : Heap.Answers Fits) (owns : replay.Owns Fits)

include answers owns

theorem Owns.serve_release (slot : Fin 64) (size : Nat) :
    ∃ reply, replay.client.serve (.release (replay.slots.get slot)) = .ok reply ∧
      (replay.settle reply.state slot none size).Owns Fits := by
  have hwords : (Request.release (replay.slots.get slot)).Words := trivial
  have hsubject : ∀ block ∈ (Request.release (replay.slots.get slot)).subject?,
      replay.slots.get slot = some block := fun _ h => h
  obtain ⟨reply, hreply⟩ := owns.serve_returns answers hwords hsubject
  obtain ⟨-, hsilent, -⟩ := owns.served answers hwords hsubject hreply
  have hnone : reply.answer = none := hsilent rfl
  refine ⟨reply, hreply, owns.settle answers hwords hsubject hreply ?_ size⟩
  simp [hnone, Request.ended?]

theorem Owns.sweepSlot (slot : Fin 64) :
    ∃ next, replay.sweepSlot slot = .ok next ∧ next.Owns Fits ∧
      ∀ other, next.slots.get other = if slot = other then none else replay.slots.get other := by
  obtain ⟨reply, hreply, swept⟩ := owns.serve_release answers slot (replay.sizes.get slot)
  refine ⟨_, ?_, swept, slots_settle replay reply.state slot none _⟩
  rw [Replay.sweepSlot, hreply, ok_bind, pure_eq_ok, Replay.settle, Record.set_get]

theorem Owns.releaseSlot (tidy : replay.Tidy) (hlook : replay.look slot = .ok ()) :
    ∃ next, replay.releaseSlot slot = .ok next ∧ next.Owns Fits ∧ next.Tidy := by
  obtain ⟨reply, hreply, released⟩ := owns.serve_release answers slot 0
  refine ⟨_, ?_, released, tidy.settle fun _ => rfl⟩
  rw [look] at hlook
  rw [Replay.releaseSlot, hlook, ok_bind, hreply, ok_bind, pure_eq_ok]

theorem Owns.serve_new (hempty : replay.slots.get slot = none) (hnew : request.subject? = none)
    (hwords : request.Words) :
    ∃ reply, replay.client.serve request = .ok reply ∧
      (∀ size, (replay.settle reply.state slot reply.answer size).Owns Fits) ∧
      ∀ block ∈ reply.answer, reply.state.held[block]? = some request.size := by
  have hsubject : ∀ block ∈ request.subject?, replay.slots.get slot = some block := by
    simp [hnew]
  obtain ⟨reply, hreply⟩ := owns.serve_returns answers hwords hsubject
  obtain ⟨-, hsilent, -⟩ := owns.served answers hwords hsubject hreply
  refine ⟨reply, hreply, fun size => owns.settle answers hwords hsubject hreply ?_ size, ?_⟩
  · simp [hempty]
  · intro block hanswer
    obtain ⟨-, inner, -, rfl⟩ := Client.serve_eq_ok.mp hreply
    exact (Client.getElem?_recordAfter hsilent block).trans (if_pos hanswer)

theorem Owns.serve_resize (slot : Fin 64) (hwords : size < Word.bound) :
    ∃ reply, replay.client.serve (.resize (replay.slots.get slot) size) = .ok reply ∧
      (reply.answer = none → { replay with client := reply.state }.Owns Fits) ∧
      ∀ block ∈ reply.answer, reply.state.held[block]? = some size ∧
        ∀ account, (replay.settle reply.state slot (some block) account).Owns Fits := by
  have hresize : (Request.resize (replay.slots.get slot) size).Words := hwords
  have hsubject : ∀ block ∈ (Request.resize (replay.slots.get slot) size).subject?,
      replay.slots.get slot = some block := fun _ h => h
  obtain ⟨reply, hreply⟩ := owns.serve_returns answers hresize hsubject
  obtain ⟨-, hsilent, -⟩ := owns.served answers hresize hsubject hreply
  refine ⟨reply, hreply, fun hanswer => ?_, fun block hanswer => ⟨?_, fun account => ?_⟩⟩
  · rw [← settle_same]
    refine owns.settle answers hresize hsubject hreply ?_ _
    simp [hanswer, Request.ended?]
  · obtain ⟨-, inner, -, rfl⟩ := Client.serve_eq_ok.mp hreply
    exact (Client.getElem?_recordAfter hsilent block).trans (if_pos hanswer)
  · refine owns.settle answers hresize hsubject hreply ?_ account
    rw [Option.mem_def.mp hanswer]
    simp [Request.ended?]

end acts

/-- After the look at the old bytes a resize that is answered looks at the bytes that were
kept, and then it fills the block. -/
theorem resizeSlot_eq {block : Nat} (hlook : replay.look slot = .ok ())
    (hreply : replay.client.serve (.resize (replay.slots.get slot) size) = .ok reply)
    (hanswer : reply.answer = some block) :
    replay.resizeSlot slot size = (do
      check reply.state (some block) (min (replay.sizes.get slot) size) (fillByte slot)
      (replay.settle reply.state slot (some block) (replay.sizes.get slot)).refill slot block) := by
  rw [look] at hlook
  rw [resizeSlot, hlook, ok_bind, hreply, ok_bind, hanswer]

theorem resizeSlot_refused_eq (hlook : replay.look slot = .ok ())
    (hreply : replay.client.serve (.resize (replay.slots.get slot) size) = .ok reply)
    (hanswer : reply.answer = none) :
    replay.resizeSlot slot size = .ok { replay with client := reply.state } := by
  rw [look] at hlook
  rw [resizeSlot, hlook, ok_bind, hreply, ok_bind, hanswer]
  rfl

/-- Without an account there is nothing to fill, so the block is not too short. -/
theorem resizeSlot_settled {block : Nat} (answers : Heap.Answers Fits)
    (hreply : replay.client.serve (.resize (replay.slots.get slot) size) = .ok reply)
    (hanswer : reply.answer = some block)
    (owns : (replay.settle reply.state slot (some block) 0).Owns Fits) :
    ∃ next, replay.unaccounted.resizeSlot slot size = .ok next ∧ next.Owns Fits ∧
      next.client.held = reply.state.held ∧
      next.slots = (replay.settle reply.state slot (some block) 0).slots := by
  have hnothing : replay.unaccounted.sizes.get slot = 0 := Record.get_replicate 0
  have hslot : (replay.unaccounted.settle reply.state slot (some block) 0).slots.get slot =
      some block := by rw [slots_settle, if_pos rfl]
  rw [resizeSlot_eq (look_unaccounted replay slot) hreply hanswer, hnothing, Nat.zero_min,
    check_nothing, ok_bind]
  rcases Owns.refill answers (owns.withSizes _) hslot with
    ⟨next, hnext, hownsNext, hheld, hslots, -⟩ | ⟨-, hshort⟩
  · exact ⟨next, hnext, hownsNext, hheld, hslots⟩
  · exact absurd hshort (not_short (Record.get_set.trans (if_pos rfl)))

theorem Owns.resizeSlot_unaccounted (answers : Heap.Answers Fits) (owns : replay.Owns Fits)
    (slot : Fin 64) (hwords : size < Word.bound) :
    ∃ next, replay.unaccounted.resizeSlot slot size = .ok next ∧ next.Owns Fits := by
  obtain ⟨reply, hreply, hrefused, hanswered⟩ := owns.serve_resize answers slot hwords
  cases hanswer : reply.answer with
  | none =>
    exact ⟨_, resizeSlot_refused_eq (look_unaccounted replay slot) hreply hanswer,
      (hrefused hanswer).withSizes _⟩
  | some block =>
    obtain ⟨-, hsettled⟩ := hanswered block hanswer
    obtain ⟨next, hnext, hownsNext, -⟩ := resizeSlot_settled answers hreply hanswer (hsettled 0)
    exact ⟨next, hnext, hownsNext⟩

theorem Owns.resizeSlot (answers : Heap.Answers Fits) (owns : replay.Owns Fits)
    (tidy : replay.Tidy) (hwords : size < Word.bound) (hlook : replay.look slot = .ok ()) :
    (∃ next, replay.resizeSlot slot size = .ok next ∧ next.Owns Fits ∧ next.Tidy) ∨
    replay.resizeSlot slot size = .error .assertion ∨
    replay.resizeSlot slot size = .error .strayAccess ∧
      ∃ next, replay.unaccounted.resizeSlot slot size = .ok next ∧ next.Owns Fits ∧
        (next.withSizes replay.sizes).Short slot := by
  obtain ⟨reply, hreply, hrefused, hanswered⟩ := owns.serve_resize answers slot hwords
  cases hanswer : reply.answer with
  | none =>
    exact .inl ⟨_, resizeSlot_refused_eq hlook hreply hanswer, hrefused hanswer, tidy⟩
  | some block =>
    obtain ⟨htotal, hsettled⟩ := hanswered block hanswer
    rw [resizeSlot_eq hlook hreply hanswer]
    cases hcheck : check reply.state (some block) (min (replay.sizes.get slot) size)
        (fillByte slot) with
    | error fault =>
      rcases check_error htotal hcheck with rfl | ⟨-, hshort⟩
      · exact .inr (.inl rfl)
      · omega
    | ok =>
      rw [ok_bind]
      have hslot : ∀ account,
          (replay.settle reply.state slot (some block) account).slots.get slot = some block :=
        fun account => by rw [slots_settle, if_pos rfl]
      rcases (hsettled (replay.sizes.get slot)).refill answers (hslot _) with
        ⟨next, hnext, hownsNext, -, hslots, hsizes⟩ | ⟨hstray, hshort⟩
      · refine .inl ⟨next, hnext, hownsNext, fun other hnone => ?_⟩
        rw [hsizes]
        exact tidy.settle (by simp) other (hslots ▸ hnone)
      · refine .inr (.inr ⟨hstray, ?_⟩)
        obtain ⟨next, hnext, howns, hheld, hslots⟩ :=
          resizeSlot_settled answers hreply hanswer (hsettled 0)
        obtain ⟨same, hsame, total, htotal, hbound⟩ := hshort
        rw [sizes_settle, if_pos rfl] at hbound
        exact ⟨next, hnext, howns, same, hslots ▸ hsame, total, hheld ▸ htotal, hbound⟩

theorem checkObtained_error {block : Nat}
    (htotal : client.held[block]? = some (requestFor operation).size)
    (h : checkObtained client operation block = .error fault) : fault = .assertion := by
  unfold checkObtained at h
  split at h
  · rename_i hopcode
    rw [requestFor, hopcode] at htotal
    rcases check_error htotal h with hfault | ⟨-, hshort⟩
    · exact hfault
    · rw [Request.size] at hshort
      omega
  · rw [Checked.require] at h
    split at h
    · cases h
    · exact (Except.error.inj h).symm
  · cases h

theorem Owns.replaceSlot (answers : Heap.Answers Fits) (owns : replay.Owns Fits)
    (tidy : replay.Tidy) (hsize : operation.size < 65536) :
    (∃ next, replay.replaceSlot operation = .ok next ∧ next.Owns Fits ∧ next.Tidy) ∨
    replay.replaceSlot operation = .error .assertion := by
  obtain ⟨released, hreleased, emptied⟩ := owns.serve_release answers operation.slot 0
  have hempty : (replay.settle released.state operation.slot none 0).slots.get operation.slot =
      none := by rw [slots_settle, if_pos rfl]
  obtain ⟨obtained, hobtained, hsettled, htotal⟩ := emptied.serve_new answers hempty
    (subject?_requestFor operation) (words_requestFor hsize)
  change released.state.serve (requestFor operation) = .ok obtained at hobtained
  simp only [settle_settle] at hsettled
  rw [Replay.replaceSlot, hreleased, ok_bind]
  dsimp only
  rw [hobtained, ok_bind]
  cases hanswer : obtained.answer with
  | none =>
    rw [hanswer] at hsettled
    exact .inl ⟨_, rfl, hsettled 0, tidy.settle fun _ => rfl⟩
  | some block =>
    rw [hanswer] at hsettled
    have hblock := htotal block hanswer
    dsimp only
    cases hcheck : checkObtained obtained.state operation block with
    | error fault =>
      obtain rfl := checkObtained_error hblock hcheck
      exact .inr rfl
    | ok =>
      rw [ok_bind]
      have hslot : (replay.settle obtained.state operation.slot (some block)
          (requestFor operation).size).slots.get operation.slot = some block := by
        rw [slots_settle, if_pos rfl]
      rcases (hsettled (requestFor operation).size).refill answers hslot with
        ⟨next, hnext, hownsNext, -, hslots, hsizes⟩ | ⟨-, same, hsame, total, hsize, hshort⟩
      · refine .inl ⟨next, hnext, hownsNext, fun other hnone => ?_⟩
        rw [hsizes]
        exact tidy.settle (by simp) other (hslots ▸ hnone)
      · obtain rfl := Option.some.inj (hslot.symm.trans hsame)
        rw [sizes_settle, if_pos rfl] at hshort
        cases hblock.symm.trans hsize
        omega

/-- How an operation may end. The slots are right then, or an assertion has failed, or a block
in use was too short for its account; the last does not happen if there is no account. -/
inductive Lands (Fits : σ → Std.TreeMap Nat Nat → Prop) (replay : Replay σ)
    (operation : Operation) : Prop
  | returned {next : Replay σ} : replay.step operation = .ok next → next.Owns Fits →
      next.Tidy → Lands Fits replay operation
  | failed : replay.step operation = .error .assertion → Lands Fits replay operation
  | strayed {next : Replay σ} : replay.step operation = .error .strayAccess →
      replay.unaccounted.step operation = .ok next → next.Owns Fits →
      replay.Short operation.slot ∨ (next.withSizes replay.sizes).Short operation.slot →
      Lands Fits replay operation

/-- An operation that looks first fails by its look, or it goes on. -/
theorem Owns.lands_of_look {rest : Replay σ → Checked (Replay σ)} (owns : replay.Owns Fits)
    (tidy : replay.Tidy)
    (hstep : ∀ head : Replay σ, head.step operation = do head.look operation.slot; rest head)
    (hblind : ∃ next, replay.unaccounted.step operation = .ok next ∧ next.Owns Fits)
    (hrest : replay.look operation.slot = .ok () → replay.Lands Fits operation) :
    replay.Lands Fits operation := by
  cases hlook : replay.look operation.slot with
  | ok => exact hrest hlook
  | error fault =>
    have herror : replay.step operation = .error fault := by
      rw [hstep, hlook]
      rfl
    rcases owns.look_error tidy hlook with rfl | ⟨rfl, hshort⟩
    · exact .failed herror
    · obtain ⟨next, hnext, hownsNext⟩ := hblind
      exact .strayed herror hnext hownsNext (.inl hshort)

theorem Owns.lands (answers : Heap.Answers Fits) (owns : replay.Owns Fits) (tidy : replay.Tidy)
    (hsize : operation.size < 65536) : replay.Lands Fits operation := by
  have hword : operation.size < Word.bound := Nat.lt_trans hsize (by decide)
  cases hopcode : operation.opcode with
  | release =>
    have hstep : ∀ head : Replay σ, head.step operation = head.releaseSlot operation.slot := by
      intro head
      rw [step, hopcode]
    refine owns.lands_of_look tidy hstep ?_ fun hlook => ?_
    · obtain ⟨next, hnext, hownsNext, -⟩ := (owns.withSizes _).releaseSlot answers
        (tidy_unaccounted replay) (look_unaccounted replay operation.slot)
      exact ⟨next, (hstep _).trans hnext, hownsNext⟩
    · obtain ⟨next, hnext, hownsNext, hnextTidy⟩ := owns.releaseSlot answers tidy hlook
      exact .returned ((hstep _).trans hnext) hownsNext hnextTidy
  | resize =>
    have hstep : ∀ head : Replay σ,
        head.step operation = head.resizeSlot operation.slot operation.size := by
      intro head
      rw [step, hopcode]
    refine owns.lands_of_look tidy hstep ?_ fun hlook => ?_
    · rw [hstep]
      exact owns.resizeSlot_unaccounted answers operation.slot hword
    · rcases owns.resizeSlot answers tidy hword hlook with ⟨next, hnext, hownsNext, hnextTidy⟩ |
        hfailed | ⟨hstray, next, hnext, hownsNext, hshort⟩
      · exact .returned ((hstep _).trans hnext) hownsNext hnextTidy
      · exact .failed ((hstep _).trans hfailed)
      · exact .strayed ((hstep _).trans hstray) ((hstep _).trans hnext) hownsNext (.inr hshort)
  | allocate | allocateZeroed | allocateAligned =>
    have hstep : replay.step operation = replay.replaceSlot operation := by rw [step, hopcode]
    rcases owns.replaceSlot answers tidy hsize with ⟨next, hnext, hownsNext, hnextTidy⟩ | hfailed
    · exact .returned (hstep.trans hnext) hownsNext hnextTidy
    · exact .failed (hstep.trans hfailed)

/-- Where a replay may be after some acts. Between them any bytes may have changed, as long as
the heap goes on to answer; after a stray access it goes on with the sizes as they may be. -/
inductive Reaches (Fits : σ → Std.TreeMap Nat Nat → Prop) (heap : σ) :
    List Act → Replay σ → Prop
  | start : Reaches Fits heap [] (start heap)
  | perform {before : List Act} {act : Act} {replay next : Replay σ} :
      Reaches Fits heap before replay → act.perform replay = .ok next →
      Reaches Fits heap (before ++ [act]) next
  | stray {before : List Act} {act : Act} {replay next : Replay σ} {sizes : Vector Nat 64} :
      Reaches Fits heap before replay → act.perform replay = .error .strayAccess →
      act.perform replay.unaccounted = .ok next → (next.withSizes sizes).Tidy →
      Reaches Fits heap (before ++ [act]) (next.withSizes sizes)
  | change {before : List Act} {replay : Replay σ} {m : Memory} :
      Reaches Fits heap before replay →
      Fits (Heap.withMemory m replay.client.heap) replay.client.held →
      Reaches Fits heap before (replay.damaged m)

structure Kept (Fits : σ → Std.TreeMap Nat Nat → Prop) (before : List Act) (replay : Replay σ) :
    Prop where
  owns : replay.Owns Fits
  tidy : (∀ slot, .clear slot ∉ before) → replay.Tidy
  cleared : ∀ slot, .clear slot ∈ before → replay.slots.get slot = none

theorem clear_notMem_of_carry {data : List UInt8}
    (hfirst : before ++ [.carry operation] <+: acts data) (slot : Fin 64) :
    .clear slot ∉ before := by
  have hcarried : ∀ {act}, act ∈ (Operation.decode data).map Act.carry → act ≠ .clear slot := by
    intro act hmem
    obtain ⟨_, -, rfl⟩ := List.mem_map.mp hmem
    simp
  obtain ⟨rest, hrest⟩ := hfirst
  rw [acts, List.append_eq_append_iff] at hrest
  intro hmem
  have hhere : .clear slot ∈ before ++ [.carry operation] := List.mem_append_left _ hmem
  rcases hrest with ⟨tail, hcarries, -⟩ | ⟨tail, hall, hclears⟩
  · exact hcarried (hcarries ▸ List.mem_append_left _ hhere) rfl
  · rcases List.eq_nil_or_concat tail with rfl | ⟨start, last, rfl⟩
    · rw [List.append_nil] at hall
      exact hcarried (hall ▸ hhere) rfl
    · rw [List.concat_eq_append] at hall hclears
      rw [← List.append_assoc] at hall
      obtain rfl := List.singleton_inj.mp (List.append_inj' hall rfl).2
      have hclear : Act.carry operation ∈ (List.finRange 64).map Act.clear :=
        hclears ▸ List.mem_append_left _ (List.mem_append_right _ List.mem_cons_self)
      obtain ⟨_, -, hne⟩ := List.mem_map.mp hclear
      cases hne

omit [Heap σ] in
theorem kept_start (hfits : Fits heap ∅) : Kept Fits [] (start heap) where
  owns := by
    refine ⟨hfits, fun ha => ?_, fun block => iff_of_false Std.TreeMap.not_mem_emptyc ?_⟩
    · cases (slots_start _).symm.trans ha
    · rintro ⟨slot, hslot⟩
      cases (slots_start slot).symm.trans hslot
  tidy _ slot _ := sizes_start slot
  cleared slot hmem := by cases hmem

omit [Heap σ] in
/-- Nothing is carried out once the slots are being cleared. -/
theorem Kept.of_carry {data : List UInt8} (hfirst : before ++ [.carry operation] <+: acts data)
    (owns : replay.Owns Fits) (tidy : replay.Tidy) :
    Kept Fits (before ++ [.carry operation]) replay where
  owns := owns
  tidy _ := tidy
  cleared slot hmem := by
    have hbefore : .clear slot ∈ before := by simpa using hmem
    exact absurd hbefore (clear_notMem_of_carry hfirst slot)

omit [Heap σ] in
theorem Kept.of_clear (kept : Kept Fits before replay) (owns : next.Owns Fits)
    (hslots : ∀ other,
      next.slots.get other = if slot = other then none else replay.slots.get other) :
    Kept Fits (before ++ [.clear slot]) next where
  owns := owns
  tidy hnone := absurd (List.mem_append_right _ List.mem_cons_self) (hnone slot)
  cleared other hmem := by
    rw [hslots]
    split
    · rfl
    · rename_i hne
      rcases List.mem_append.mp hmem with hbefore | hlast
      · exact kept.cleared other hbefore
      · exact absurd (Act.clear.inj (List.mem_singleton.mp hlast)).symm hne

theorem Kept.lands (kept : Kept Fits before replay) (answers : Heap.Answers Fits)
    {data : List UInt8} (hfirst : before ++ [.carry operation] <+: acts data) :
    replay.Lands Fits operation := by
  have hsize : operation.size < 65536 :=
    bounded_of_mem_acts (hfirst.subset (List.mem_append_right _ List.mem_cons_self))
  exact kept.owns.lands answers (kept.tidy (clear_notMem_of_carry hfirst)) hsize

theorem kept_of_reaches (answers : Heap.Answers Fits) (hfits : Fits heap ∅) {data : List UInt8}
    (hfirst : before <+: acts data) (reaches : Reaches Fits heap before replay) :
    Kept Fits before replay := by
  induction reaches with
  | start => exact kept_start hfits
  | @perform before act replay next _ hperform ih =>
    have kept := ih ((List.prefix_append _ _).trans hfirst)
    cases act with
    | carry operation =>
      cases kept.lands answers hfirst with
      | returned hstep owns hnextTidy =>
        obtain rfl := Except.ok.inj (hperform.symm.trans hstep)
        exact .of_carry hfirst owns hnextTidy
      | failed hstep => cases hperform.symm.trans hstep
      | strayed hstep => cases hperform.symm.trans hstep
    | clear slot =>
      obtain ⟨same, hsame, owns, hslots⟩ := kept.owns.sweepSlot answers slot
      obtain rfl := Except.ok.inj (hperform.symm.trans hsame)
      exact kept.of_clear owns hslots
  | @stray before act replay next sizes _ hstray hblind htidy ih =>
    have kept := ih ((List.prefix_append _ _).trans hfirst)
    cases act with
    | carry operation =>
      cases kept.lands answers hfirst with
      | returned hstep => cases hstray.symm.trans hstep
      | failed hstep => cases hstray.symm.trans hstep
      | strayed _ hstep owns =>
        obtain rfl := Except.ok.inj (hblind.symm.trans hstep)
        exact .of_carry hfirst (owns.withSizes sizes) htidy
    | clear slot =>
      obtain ⟨same, hsame, -⟩ := kept.owns.sweepSlot answers slot
      cases hstray.symm.trans hsame
  | change _ hchanged ih =>
    have kept := ih hfirst
    exact ⟨⟨hchanged, kept.owns.distinct, kept.owns.held⟩, kept.tidy, kept.cleared⟩

theorem reaches_of_run {data : List UInt8} (h : run data heap = .ok next) :
    Reaches Fits heap (acts data) next := by
  rw [run_eq_perform] at h
  generalize acts data = all at h
  induction all using List.reverseRecOn generalizing next with
  | nil =>
    obtain rfl := Except.ok.inj h
    exact .start
  | append_singleton before act ih =>
    rw [List.foldlM_append] at h
    obtain ⟨head, hhead, hperform⟩ := bind_eq_ok.mp h
    rw [List.foldlM_cons] at hperform
    obtain ⟨same, hsame, hlast⟩ := bind_eq_ok.mp hperform
    obtain rfl := Except.ok.inj hlast
    exact .perform (ih hhead) hsame

/-- Whatever the heap answers, the slots have the blocks in use, each block once, and a block
is only resized, given back, looked at or filled while it is in use. A run that comes to its
end has given all blocks back, and no act of a run fails but by an assertion or at the end of
a block in use. -/
theorem linear_of_reaches (answers : Heap.Answers Fits) (hfits : Fits heap ∅)
    (data : List UInt8) :
    (∀ final, run data (⟨heap, []⟩ : Logged σ) = .ok final →
      Reaches (Logged.Keeps Fits) ⟨heap, []⟩ (acts data) final) ∧
    ∀ before (replay : Replay (Logged σ)), before <+: acts data →
      Reaches (Logged.Keeps Fits) ⟨heap, []⟩ before replay →
      (∀ a b : Fin 64, ∀ block, replay.slots.get a = some block →
        replay.slots.get b = some block → a = b) ∧
      (∀ block, block ∈ liveAfter replay.client.heap.log ↔
        ∃ slot : Fin 64, replay.slots.get slot = some block) ∧
      Orderly replay.client.heap.log ∧
      (before = acts data → liveAfter replay.client.heap.log = ∅) ∧
      ∀ act, before ++ [act] <+: acts data →
        (∃ next, act.perform replay = .ok next) ∨ act.perform replay = .error .assertion ∨
        act.perform replay = .error .strayAccess ∧
          ∃ next, act.perform replay.unaccounted = .ok next ∧
            (replay.Short act.slot ∨ (next.withSizes replay.sizes).Short act.slot) := by
  have answersLogged := Logged.answers answers
  have hstart := Logged.keeps_empty hfits
  refine ⟨fun final hrun => reaches_of_run hrun, fun before replay hfirst reaches => ?_⟩
  have kept := kept_of_reaches answersLogged hstart hfirst reaches
  have hlive : ∀ block, block ∈ liveAfter replay.client.heap.log ↔
      ∃ slot : Fin 64, replay.slots.get slot = some block := fun block =>
    (kept.owns.fits.live block).trans (kept.owns.held block)
  refine ⟨fun a b block => kept.owns.distinct, hlive, kept.owns.fits.orderly, ?_, ?_⟩
  · rintro rfl
    refine Finset.eq_empty_of_forall_notMem fun block hblock => ?_
    obtain ⟨slot, hslot⟩ := (hlive block).mp hblock
    have hclear : .clear slot ∈ acts data :=
      List.mem_append_right _ (List.mem_map_of_mem (List.mem_finRange slot))
    cases (kept.cleared slot hclear).symm.trans hslot
  · intro act hact
    cases act with
    | carry operation =>
      have hsize : operation.size < 65536 :=
        bounded_of_mem_acts (hact.subset (List.mem_append_right _ List.mem_cons_self))
      cases kept.owns.lands answersLogged (kept.tidy (clear_notMem_of_carry hact)) hsize with
      | returned hstep => exact .inl ⟨_, hstep⟩
      | failed hstep => exact .inr (.inl hstep)
      | strayed hstep hblind _ hshort => exact .inr (.inr ⟨hstep, _, hblind, hshort⟩)
    | clear slot =>
      obtain ⟨next, hnext, -⟩ := kept.owns.sweepSlot answersLogged slot
      exact .inl ⟨next, hnext⟩

/-- Nothing is obtained at first, and a block by a resize of nothing; it stays when another size
is refused, moves, and is replaced by one under its first address. The other is cleared. -/
theorem linear_of_reaches_scripted :
    ∃ final, run [0, 10, 0, 0, 2, 20, 0, 0, 2, 40, 0, 0, 2, 60, 0, 0, 3, 2, 1, 1, 0, 9, 0, 0]
        (Logged.mk (Scripted.following
          [none, some 1000, none, some 2000, some 3000, some 1000]) []) = .ok final ∧
      liveAfter (final.client.heap.log.take 9) = {1000, 3000} ∧
      Orderly final.client.heap.log ∧ liveAfter final.client.heap.log = ∅ := by
  obtain ⟨hreached, hlinear⟩ := linear_of_reaches Scripted.answers
    (Scripted.fits_following [none, some 1000, none, some 2000, some 3000, some 1000])
    [0, 10, 0, 0, 2, 20, 0, 0, 2, 40, 0, 0, 2, 60, 0, 0, 3, 2, 1, 1, 0, 9, 0, 0]
  have hcomputed : ((run
      [0, 10, 0, 0, 2, 20, 0, 0, 2, 40, 0, 0, 2, 60, 0, 0, 3, 2, 1, 1, 0, 9, 0, 0]
      (Logged.mk (Scripted.following
        [none, some 1000, none, some 2000, some 3000, some 1000]) [])).toOption.map fun final =>
      liveAfter (final.client.heap.log.take 9)) = some {1000, 3000} := by decide +kernel
  cases hrun : run [0, 10, 0, 0, 2, 20, 0, 0, 2, 40, 0, 0, 2, 60, 0, 0, 3, 2, 1, 1, 0, 9, 0, 0]
      (Logged.mk (Scripted.following
        [none, some 1000, none, some 2000, some 3000, some 1000]) []) with
  | error fault =>
    rw [hrun] at hcomputed
    cases hcomputed
  | ok final =>
    rw [hrun] at hcomputed
    obtain ⟨-, -, horderly, hnone, -⟩ :=
      hlinear (acts _) final (List.prefix_rfl) (hreached final hrun)
    exact ⟨final, rfl, Option.some.inj hcomputed, horderly, hnone rfl⟩

end Replay

end RegionHeap
