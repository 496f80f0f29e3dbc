import RegionHeap.Proofs.Replay.Account

/-!
# What a replay notices

Between two acts of a replay anyone may have changed any bytes of its blocks. A
replay is watchful if it then fails an assertion before it resizes the block or
gives it back. It looks at a slot only before the two operations that do nothing
else, and no further than its account says; where a new block takes the place of
an old one, and at the end, it looks at nothing. What it looks at it does notice.
-/
namespace RegionHeap.Replay

open Checked
open Framed (meets_contract onBreak onBreak_fresh)
open Growth (Break)
open Sized (TopSpace)

/-- What a replay does at one time: it carries out an operation, or empties a slot at the end. -/
inductive Act where
  | carry (operation : Operation)
  | clear (slot : Fin 64)
deriving Repr, DecidableEq

/-- All that a replay of these bytes does, in order. -/
def acts (data : List UInt8) : List Act :=
  (Operation.decode data).map .carry ++ (List.finRange 64).map .clear

namespace Act

def slot : Act → Fin 64
  | carry operation => operation.slot
  | clear slot => slot

def perform {σ : Type} [Heap σ] : Act → Replay σ → Checked (Replay σ)
  | carry operation, replay => replay.step operation
  | clear slot, replay => replay.sweepSlot slot

/-- The act looks at what is in its slot before it does anything to it. -/
def Looks : Act → Prop
  | carry operation => operation.opcode = .release ∨ operation.opcode = .resize
  | clear _ => False

/-- An operation has a size of sixteen bits. -/
def Bounded : Act → Prop
  | carry operation => operation.size < 65536
  | clear _ => True

end Act

variable {σ : Type} [Heap σ] {Fits : σ → Std.TreeMap Nat Nat → Prop} {replay next : Replay σ}
  {client : Client σ} {slot : Fin 64} {block size total offset count : Nat} {expected : UInt8}
  {operation : Operation} {act : Act} {before : List Act} {heap : σ}

theorem run_eq_perform (heap : σ) (data : List UInt8) :
    run data heap = (acts data).foldlM (fun replay act => act.perform replay) (start heap) := by
  rw [acts, List.foldlM_append, List.foldlM_map, run_eq]
  refine congrArg _ (funext fun replay => ?_)
  rw [List.foldlM_map]
  rfl

theorem bounded_of_mem_acts {data : List UInt8} (h : act ∈ acts data) : act.Bounded := by
  rcases List.mem_append.mp h with hcarry | hclear
  · obtain ⟨operation, hmem, rfl⟩ := List.mem_map.mp hcarry
    exact Operation.size_lt_of_mem_decode hmem
  · obtain ⟨slot, -, rfl⟩ := List.mem_map.mp hclear
    trivial

/-- The memory may have any bytes in held blocks; all others are as they were. -/
def Damages (client : Client σ) (m : Memory) : Prop :=
  ∀ address, (∀ block size, client.held[block]? = some size →
    ¬(block ≤ address ∧ address < block + size)) →
    m.byte address = (Heap.memory client.heap).byte address

def damaged (replay : Replay σ) (m : Memory) : Replay σ :=
  { replay with client := replay.client.withMemory m }

/-- Where a replay may be after some acts, with damage done between them. -/
inductive Head (heap : σ) : List Act → Replay σ → Prop
  | start : Head heap [] (start heap)
  | perform {before : List Act} {act : Act} {replay next : Replay σ} :
      Head heap before replay → act.perform replay = .ok next → Head heap (before ++ [act]) next
  | damage {before : List Act} {replay : Replay σ} {m : Memory} :
      Head heap before replay → Damages replay.client m → Head heap before (replay.damaged m)

/-- A byte that is looked at for a size is not the one that the slot is filled with. -/
def Spoiled (replay : Replay σ) (slot : Fin 64) (size : Nat) : Prop :=
  ∃ block ∈ replay.slots.get slot, ∃ i < min size window,
    (Heap.memory replay.client.heap).byte (block + i) ≠ fillByte slot

/-- The heap with other answers. -/
abbrev answering (serve : Request → σ → Checked (Reply (Option Nat) σ)) : Heap σ :=
  ⟨serve, Heap.memory, Heap.withMemory⟩

/-- The act fails an assertion before it asks the heap for anything: so it does whatever the
heap would answer. -/
def Stops (replay : Replay σ) (act : Act) : Prop :=
  ∀ serve, @Act.perform σ (answering serve) act replay = .error .assertion

/-- The act looks at the block in its slot for all of its size, if there is anything to see. -/
def Guards (replay : Replay σ) (act : Act) : Prop :=
  replay.actual act.slot = 0 ∨
    act.Looks ∧ min (replay.actual act.slot) window ≤ replay.sizes.get act.slot

/-- Whatever damage is done between the acts of a replay, each act on a block of which one
of the first bytes was changed stops. -/
def Watchful (heap : σ) (data : List UInt8) : Prop :=
  ∀ before act replay, before ++ [act] <+: acts data → Head heap before replay →
    replay.Spoiled act.slot (replay.actual act.slot) → replay.Stops act

theorem expectBytes_spoiled (htotal : client.held[block]? = some total)
    (hroom : offset + count ≤ total)
    (hspoiled : ∃ i, offset ≤ i ∧ i < offset + count ∧
      (Heap.memory client.heap).byte (block + i) ≠ expected) :
    expectBytes client block expected offset count = .error .assertion := by
  induction count generalizing offset with
  | zero =>
    obtain ⟨i, hlow, hhigh, -⟩ := hspoiled
    omega
  | succ count ih =>
    rw [expectBytes_succ htotal (by omega)]
    by_cases hfirst : (Heap.memory client.heap).byte (block + offset) = expected
    · rw [require_of .assertion hfirst, ok_bind]
      apply ih (by omega)
      obtain ⟨i, hlow, hhigh, hbyte⟩ := hspoiled
      have hne : i ≠ offset := fun heq => hbyte (heq ▸ hfirst)
      exact ⟨i, by omega, by omega, hbyte⟩
    · rw [Checked.require, if_neg hfirst]
      rfl

structure Roomy (Fits : σ → Std.TreeMap Nat Nat → Prop) (replay : Replay σ) : Prop
    extends Stocked Fits replay where
  room : ∀ {slot : Fin 64} {block}, replay.slots.get slot = some block →
    ∃ total, replay.client.held[block]? = some total ∧ min (replay.sizes.get slot) window ≤ total

section acts

variable (contract : Heap.Contract Fits) (roomy : replay.Roomy Fits)

include roomy

theorem Roomy.settle {block : Option Nat} (hfits : Fits client.heap client.held)
    (spares : replay.Spares slot client)
    (hnew : ∀ other, slot ≠ other → ∀ address ∈ block, replay.slots.get other ≠ some address)
    (hroom : ∀ address ∈ block, ∃ total, client.held[address]? = some total ∧
      min size window ≤ total) :
    (replay.settle client slot block size).Roomy Fits where
  toStocked := by
    refine roomy.toStocked.settle hfits spares hnew (fun address haddress => ?_) size
    obtain ⟨total, htotal, -⟩ := hroom address haddress
    exact Record.mem_iff.mpr ⟨total, htotal⟩
  room := by
    intro other address hother
    rw [slots_settle] at hother
    rw [sizes_settle]
    split at hother
    · rename_i hsame
      rw [if_pos hsame]
      exact hroom address hother
    · rename_i hne
      rw [if_neg hne]
      obtain ⟨total, htotal, hbound⟩ := roomy.room hother
      exact ⟨total, (spares other hne address hother).1.trans htotal, hbound⟩

include contract

theorem Roomy.refill (hfits : Fits client.heap client.held) (spares : replay.Spares slot client)
    (hfresh : ∀ other, slot ≠ other → replay.slots.get other ≠ some block)
    (htotal : client.held[block]? = some total)
    (h : (replay.settle client slot (some block) size).refill slot block = .ok next) :
    next.Roomy Fits := by
  rw [refill_eq] at h
  obtain ⟨filled, hfill, hnext⟩ := bind_eq_ok.mp h
  obtain rfl := Except.ok.inj hnext
  have hroom : min size window ≤ total := by
    rcases Client.covers_iff.mp (Client.update_eq_ok.mp hfill).1 with hnone | ⟨same, hsame, hinside⟩
    · omega
    · cases htotal.symm.trans hsame
      omega
  refine roomy.settle (Client.fits_update contract hfits hfill)
    (spares.fill contract hfits hfresh htotal hroom hfill) ?_ ?_
  · intro other hne _ hgiven
    cases hgiven
    exact hfresh other hne
  · intro _ hgiven
    cases hgiven
    exact ⟨total, by rw [Client.held_of_update hfill, htotal], hroom⟩

theorem Roomy.release {reply : Reply (Option Nat) (Client σ)}
    (hreply : replay.client.serve (.release (replay.slots.get slot)) = .ok reply) (size : Nat) :
    (replay.settle reply.state slot none size).Roomy Fits := by
  have hwords : (Request.release (replay.slots.get slot)).Words := trivial
  have served := roomy.served contract hwords (fun _ h => h) hreply
  exact roomy.settle served.fits served.spares (by simp) (by simp)

theorem Roomy.releaseSlot (h : replay.releaseSlot slot = .ok next) : next.Roomy Fits := by
  obtain ⟨_, -, h⟩ := bind_eq_ok.mp h
  obtain ⟨reply, hreply, h⟩ := bind_eq_ok.mp h
  obtain rfl := Except.ok.inj h
  exact roomy.release contract hreply 0

theorem Roomy.sweepSlot (h : replay.sweepSlot slot = .ok next) : next.Roomy Fits := by
  obtain ⟨reply, hreply, h⟩ := bind_eq_ok.mp h
  obtain rfl := Except.ok.inj h
  have released := roomy.release contract hreply (replay.sizes.get slot)
  rwa [Replay.settle, Record.set_get] at released

theorem Roomy.resizeSlot (hsize : size < 65536) (h : replay.resizeSlot slot size = .ok next) :
    next.Roomy Fits := by
  obtain ⟨_, -, h⟩ := bind_eq_ok.mp h
  obtain ⟨reply, hreply, h⟩ := bind_eq_ok.mp h
  have hwords : (Request.resize (replay.slots.get slot) size).Words :=
    Nat.lt_trans hsize (by decide)
  have served := roomy.served contract hwords (fun _ h => h) hreply
  cases hanswer : reply.answer with
  | none =>
    rw [hanswer] at h
    obtain rfl := Except.ok.inj h
    rw [← settle_same]
    refine roomy.settle served.fits served.spares ?_ fun address haddress => ?_
    · intro other hne block hblock hother
      exact hne (roomy.distinct hblock hother)
    · have hheld : reply.state.held[address]? = replay.client.held[address]? := by
        rw [served.held, Client.getElem?_recordAfter served.met.silent, hanswer]
        cases replay.slots.get slot <;> rfl
      rw [hheld]
      exact roomy.room haddress
  | some block =>
    rw [hanswer] at h
    obtain ⟨_, -, h⟩ := bind_eq_ok.mp h
    have htotal : reply.state.held[block]? = some size := by
      rw [served.held, Client.getElem?_recordAfter served.met.silent, if_pos hanswer, Request.size]
    exact roomy.refill contract served.fits served.spares
      (fun other hne => served.fresh other hne block hanswer) htotal h

theorem Roomy.replaceSlot (hsize : operation.size < 65536)
    (h : replay.replaceSlot operation = .ok next) : next.Roomy Fits := by
  obtain ⟨released, hreleased, h⟩ := bind_eq_ok.mp h
  obtain ⟨obtained, hobtained, h⟩ := bind_eq_ok.mp h
  have emptied := roomy.release contract hreleased 0
  have served := emptied.served contract (words_requestFor hsize)
    (subject?_requestFor_of_slot operation _) hobtained
  cases hanswer : obtained.answer with
  | none =>
    rw [hanswer] at h
    obtain rfl := Except.ok.inj h
    have settled : ((replay.settle released.state operation.slot none 0).settle obtained.state
        operation.slot none 0).Roomy Fits :=
      emptied.settle served.fits served.spares (by simp) (by simp)
    rwa [settle_settle] at settled
  | some block =>
    rw [hanswer] at h
    obtain ⟨_, -, h⟩ := bind_eq_ok.mp h
    have htotal : obtained.state.held[block]? = some (requestFor operation).size := by
      rw [served.held, Client.getElem?_recordAfter served.met.silent, if_pos hanswer]
    rw [← settle_settle replay released.state _ _ none _ 0] at h
    exact emptied.refill contract served.fits served.spares
      (fun other hne => served.fresh other hne block hanswer) htotal h

theorem Roomy.perform (hbounded : act.Bounded) (h : act.perform replay = .ok next) :
    next.Roomy Fits := by
  cases act with
  | clear slot => exact roomy.sweepSlot contract h
  | carry operation =>
    rw [Act.perform, step] at h
    cases hopcode : operation.opcode with
    | release => exact roomy.releaseSlot contract (by rwa [hopcode] at h)
    | resize => exact roomy.resizeSlot contract hbounded (by rwa [hopcode] at h)
    | allocate | allocateZeroed | allocateAligned =>
      exact roomy.replaceSlot contract hbounded (by rwa [hopcode] at h)

theorem Roomy.damaged {m : Memory} (hdamages : Damages replay.client m) :
    (replay.damaged m).Roomy Fits where
  fits := contract.write roomy.fits hdamages
  held := roomy.held
  distinct := roomy.distinct
  room := roomy.room

end acts

theorem roomy_of_head (contract : Heap.Contract Fits) (hfits : Fits heap ∅)
    (hbounded : ∀ act ∈ before, act.Bounded) (head : Head heap before replay) :
    replay.Roomy Fits := by
  induction head with
  | start =>
    refine ⟨(steady_start hfits).toStocked, ?_⟩
    intro slot block hblock
    cases (slots_start slot).symm.trans hblock
  | perform _ hperform ih =>
    have roomy := ih fun act hmem => hbounded act (List.mem_append_left _ hmem)
    exact roomy.perform contract (hbounded _ (by simp)) hperform
  | damage _ hdamages ih => exact (ih hbounded).damaged contract hdamages

section stops

/-- The look that an act begins with, if it does. -/
def look (replay : Replay σ) (slot : Fin 64) : Checked Unit :=
  check replay.client (replay.slots.get slot) (replay.sizes.get slot) (fillByte slot)

theorem look_answering (serve : Request → σ → Checked (Reply (Option Nat) σ)) :
    @look σ (answering serve) replay slot = replay.look slot := by
  have hbytes : ∀ {block expected count offset},
      @expectBytes σ (answering serve) replay.client block expected offset count =
        expectBytes replay.client block expected offset count := by
    intro block expected count
    induction count with
    | zero => exact fun {_} => rfl
    | succ count ih =>
      intro offset
      rw [@expectBytes.eq_2 σ (answering serve), ih, expectBytes]
      rfl
  unfold look
  cases replay.slots.get slot with
  | none => rfl
  | some block => exact hbytes

theorem look_spoiled (roomy : replay.Roomy Fits)
    (hspoiled : replay.Spoiled slot (replay.sizes.get slot)) :
    replay.look slot = .error .assertion := by
  rcases hspoiled with ⟨block, hblock, i, hi, hbyte⟩
  obtain ⟨total, htotal, hroom⟩ := roomy.room hblock
  rw [look, hblock]
  exact expectBytes_spoiled htotal (by omega) ⟨i, by omega, by omega, hbyte⟩

theorem spoiled_of_look (roomy : replay.Roomy Fits) (h : replay.look slot = .error .assertion) :
    replay.Spoiled slot (replay.sizes.get slot) := by
  cases hblock : replay.slots.get slot with
  | none =>
    rw [look, hblock, check, Checked.require] at h
    split at h <;> cases h
  | some block =>
    by_contra hclean
    have shows : Shows replay.client block (replay.sizes.get slot) (fillByte slot) := by
      refine ⟨roomy.room hblock, fun {i} hi => ?_⟩
      by_contra hbyte
      exact hclean ⟨block, hblock, i, hi, hbyte⟩
    rw [look, hblock, shows.check] at h
    cases h

theorem perform_of_look {fault : Fault} (hlooks : act.Looks)
    (h : replay.look act.slot = .error fault) : act.perform replay = .error fault := by
  cases act with
  | clear slot => cases hlooks
  | carry operation =>
    rw [look, Act.slot] at h
    rw [Act.perform, step]
    rcases hlooks with hopcode | hopcode
    · rw [hopcode]
      dsimp only
      rw [releaseSlot, h]
      rfl
    · rw [hopcode]
      dsimp only
      rw [resizeSlot, h]
      rfl

/-- Over a heap that answers nothing, an act fails an assertion by its look or not at all. -/
theorem look_of_perform
    (hdead : ∀ request (heap : σ), Heap.serve request heap = .error .deadBlock)
    (h : act.perform replay = .error .assertion) :
    act.Looks ∧ replay.look act.slot = .error .assertion := by
  have hserve : ∀ request, replay.client.serve request = .error .deadBlock := by
    intro request
    rw [Client.serve, Checked.require]
    split
    · rw [ok_bind, hdead]
      rfl
    · rfl
  have hlook : ∀ slot, (replay.look slot >>= fun _ => (.error .deadBlock : Checked (Replay σ))) =
      .error .assertion → replay.look slot = .error .assertion := by
    intro slot hbind
    cases hresult : replay.look slot with
    | ok u =>
      rw [hresult] at hbind
      cases hbind
    | error fault =>
      rw [hresult] at hbind
      cases hbind
      rfl
  cases act with
  | clear slot =>
    rw [Act.perform, sweepSlot, hserve] at h
    cases h
  | carry operation =>
    rw [Act.perform, step] at h
    cases hopcode : operation.opcode with
    | release =>
      rw [hopcode] at h
      dsimp only at h
      rw [releaseSlot, hserve] at h
      exact ⟨.inl hopcode, hlook operation.slot h⟩
    | resize =>
      rw [hopcode] at h
      dsimp only at h
      rw [resizeSlot, hserve] at h
      exact ⟨.inr hopcode, hlook operation.slot h⟩
    | allocate | allocateZeroed | allocateAligned =>
      rw [hopcode] at h
      dsimp only at h
      rw [replaceSlot, hserve] at h
      cases h

theorem stops_iff (roomy : replay.Roomy Fits) :
    replay.Stops act ↔ act.Looks ∧ replay.Spoiled act.slot (replay.sizes.get act.slot) := by
  constructor
  · intro hstops
    obtain ⟨hlooks, hlook⟩ := @look_of_perform σ (answering fun _ _ => .error .deadBlock) _ _
      (fun _ _ => rfl) (hstops _)
    exact ⟨hlooks, spoiled_of_look roomy ((look_answering _).symm.trans hlook)⟩
  · intro ⟨hlooks, hspoiled⟩ serve
    exact @perform_of_look σ (answering serve) _ _ _ hlooks
      ((look_answering serve).trans (look_spoiled roomy hspoiled))

end stops

/-- Whoever damages a block may leave its first bytes as they should be, and change the rest. -/
theorem exists_damage (contract : Heap.Contract Fits)
    (htotal : replay.client.held[block]? = some total) (slot : Fin 64) (count : Nat) :
    ∃ m, Damages replay.client m ∧ ∀ i < total,
      (Heap.memory (replay.damaged m).client.heap).byte (block + i) =
        if i < count then fillByte slot else fillByte slot + 1 := by
  refine ⟨(Heap.memory replay.client.heap).update block total fun address =>
    if address < block + count then fillByte slot else fillByte slot + 1, ?_, ?_⟩
  · intro address hfree
    exact (Memory.byte_update ..).trans (if_neg (hfree block total htotal))
  · intro i hi
    rw [damaged, Client.withMemory, contract.memory_withMemory, Memory.byte_update,
      if_pos ⟨by omega, by omega⟩]
    exact if_congr (by omega) rfl rfl

omit [Heap σ] in
theorem actual_of_some (hblock : replay.slots.get slot = some block)
    (htotal : replay.client.held[block]? = some total) : replay.actual slot = total := by
  rw [actual, hblock, Option.bind_some, htotal, Option.getD_some]

omit [Heap σ] in
theorem exists_block_of_actual (h : replay.actual slot ≠ 0) :
    ∃ block, replay.slots.get slot = some block := by
  cases hblock : replay.slots.get slot with
  | none => exact absurd (by rw [actual, hblock]; rfl) h
  | some block => exact ⟨block, rfl⟩

omit [Heap σ] in
theorem exists_unseen (h : ¬replay.Guards act) :
    ∃ count < min (replay.actual act.slot) window,
      act.Looks → replay.sizes.get act.slot ≤ count := by
  obtain ⟨hsome, hblind⟩ := not_or.mp h
  by_cases hlooks : act.Looks
  · have hshort : replay.sizes.get act.slot < min (replay.actual act.slot) window := by
      by_contra hlong
      exact hblind ⟨hlooks, Nat.le_of_not_lt hlong⟩
    exact ⟨_, hshort, fun _ => Nat.le_refl _⟩
  · have hwindow : 0 < window := by decide
    exact ⟨0, by omega, fun h => absurd h hlooks⟩

/-- An act that notices whatever is done to its block looks at all of it. -/
theorem Roomy.guards (contract : Heap.Contract Fits) (roomy : replay.Roomy Fits)
    (hwatch : ∀ m, Damages replay.client m →
      (replay.damaged m).Spoiled act.slot (replay.actual act.slot) →
      (replay.damaged m).Stops act) : replay.Guards act := by
  by_contra hopen
  obtain ⟨block, hblock⟩ := exists_block_of_actual (not_or.mp hopen).1
  obtain ⟨total, htotal, -⟩ := roomy.room hblock
  obtain ⟨count, hcount, hseen⟩ := exists_unseen hopen
  rw [actual_of_some hblock htotal] at hcount hwatch
  obtain ⟨m, hdamages, hbyte⟩ := exists_damage contract htotal act.slot count
  have hspoiled : (replay.damaged m).Spoiled act.slot total := by
    refine ⟨block, hblock, count, hcount, ?_⟩
    rw [hbyte count (by omega), if_neg (Nat.lt_irrefl count)]
    simp
  obtain ⟨hlooks, same, hsame, i, hi, hwrong⟩ :=
    (stops_iff (roomy.damaged contract hdamages)).mp (hwatch m hdamages hspoiled)
  obtain rfl : block = same := Option.some.inj (hblock.symm.trans hsame)
  have hinside : i < replay.sizes.get act.slot := Nat.lt_of_lt_of_le hi (Nat.min_le_left _ _)
  have hleft : i < count := Nat.lt_of_lt_of_le hinside (hseen hlooks)
  exact hwrong ((hbyte i (by omega)).trans (if_pos hleft))

/-- Of all damage that may be done between its acts, a replay notices what a looking act
finds in the bytes on account, and at once; so it is watchful exactly if every act on a
block that has bytes looks at as many of them as are filled. -/
theorem watchful_iff (contract : Heap.Contract Fits) (hfits : Fits heap ∅) (data : List UInt8) :
    (Watchful heap data ↔ ∀ before act replay, before ++ [act] <+: acts data →
      Head heap before replay → replay.Guards act) ∧
    ∀ before act replay, before ++ [act] <+: acts data → Head heap before replay →
      (replay.Stops act ↔
        act.Looks ∧ replay.Spoiled act.slot (replay.sizes.get act.slot)) := by
  have hroomy : ∀ {before act replay}, before ++ [act] <+: acts data → Head heap before replay →
      replay.Roomy Fits := by
    intro before act replay hprefix head
    refine roomy_of_head contract hfits (fun other hmem => ?_) head
    exact bounded_of_mem_acts (List.IsPrefix.subset hprefix (List.mem_append_left _ hmem))
  refine ⟨⟨?_, ?_⟩, ?_⟩
  · intro watchful before act replay hprefix head
    refine (hroomy hprefix head).guards contract fun m hdamages hspoiled => ?_
    exact watchful before act _ hprefix (.damage head hdamages) hspoiled
  · intro hguards before act replay hprefix head hspoiled
    apply (stops_iff (hroomy hprefix head)).mpr
    rcases hspoiled with ⟨block, hblock, i, hi, hbyte⟩
    rcases hguards before act replay hprefix head with hempty | ⟨hlooks, hlong⟩
    · omega
    · exact ⟨hlooks, block, hblock, i, by omega, hbyte⟩
  · intro before act replay hprefix head
    exact stops_iff (hroomy hprefix head)

theorem head_of_after {operations : List Operation} (h : after heap operations = .ok replay) :
    Head heap (operations.map .carry) replay := by
  induction operations using List.reverseRecOn generalizing replay with
  | nil =>
    obtain rfl := Except.ok.inj h
    exact .start
  | append_singleton operations operation ih =>
    rw [after_snoc] at h
    obtain ⟨head, hhead, hstep⟩ := bind_eq_ok.mp h
    rw [List.map_append]
    exact .perform (ih hhead) hstep

/-- A block of ten bytes that stays to the end is given back without a look; one that is given
back before is looked at first. -/
theorem watchful_iff_onBreak :
    Heap.Contract (Framed.Fits (TopSpace.Sound Break) Break.Paged) ∧
      Framed.Fits (TopSpace.Sound Break) Break.Paged onBreak ∅ ∧
      ¬Watchful onBreak [0, 10, 0, 0] ∧
      ∀ replay, Head onBreak [.carry ⟨.allocate, 10, 0⟩] replay →
        (replay.Stops (.carry ⟨.release, 0, 0⟩) ↔ replay.Spoiled 0 (replay.sizes.get 0)) := by
  have contract := meets_contract TopSpace.meets_contract Break.reliable
  have hfits := onBreak_fresh.fits TopSpace.meets_contract
  refine ⟨contract, hfits, fun watchful => ?_, fun replay head => ?_⟩
  · have hguards := (watchful_iff contract hfits [0, 10, 0, 0]).1.mp watchful
    have hactual : ((after onBreak [⟨.allocate, 10, 0⟩]).toOption.map fun head => head.actual 0) =
        some 10 := by decide +kernel
    cases hhead : after onBreak [⟨.allocate, 10, 0⟩] with
    | error fault =>
      rw [hhead] at hactual
      cases hactual
    | ok head =>
      rw [hhead] at hactual
      have hsweep : [.carry ⟨.allocate, 10, 0⟩] ++ [Act.clear 0] <+: acts [0, 10, 0, 0] := by
        decide
      rcases hguards _ _ head hsweep (head_of_after hhead) with hempty | ⟨hlooks, -⟩
      · cases (Option.some.inj hactual).symm.trans hempty
      · cases hlooks
  · have hrelease : [.carry ⟨.allocate, 10, 0⟩] ++ [Act.carry ⟨.release, 0, 0⟩] <+:
        acts [0, 10, 0, 0, 1, 0, 0, 0] := by decide
    have hstops :=
      (watchful_iff contract hfits [0, 10, 0, 0, 1, 0, 0, 0]).2 _ _ replay hrelease head
    rw [hstops]
    exact and_iff_right (.inl rfl)

/-- A block of ten bytes that becomes one of a hundred is not filled any further, and a new
block takes its place without a look. -/
theorem not_watchful_onBreak :
    Heap.Contract (Framed.Fits (TopSpace.Sound Break) Break.Paged) ∧
      Framed.Fits (TopSpace.Sound Break) Break.Paged onBreak ∅ ∧
      ¬Watchful onBreak [0, 10, 0, 0, 2, 100, 0, 0, 0, 5, 0, 0] := by
  refine ⟨meets_contract TopSpace.meets_contract Break.reliable,
    onBreak_fresh.fits TopSpace.meets_contract, fun watchful => ?_⟩
  have hcomputed : ((after onBreak [⟨.allocate, 10, 0⟩, ⟨.resize, 100, 0⟩]).toOption.map
      fun head => ((head.slots.get 0).map fun block =>
          (head.actual 0, (Heap.memory head.client.heap).byte (block + 10)),
        (head.step ⟨.allocate, 5, 0⟩).toOption.isSome)) = some (some (100, 0), true) := by
    decide +kernel
  cases hhead : after onBreak [⟨.allocate, 10, 0⟩, ⟨.resize, 100, 0⟩] with
  | error fault =>
    rw [hhead] at hcomputed
    cases hcomputed
  | ok head =>
    rw [hhead] at hcomputed
    obtain ⟨hblock, hstep⟩ := Prod.mk.inj (Option.some.inj hcomputed)
    obtain ⟨block, hblock, hbyte⟩ := Option.map_eq_some_iff.mp hblock
    obtain ⟨hactual, hbyte⟩ := Prod.mk.inj hbyte
    have hspoiled : head.Spoiled 0 (head.actual 0) := by
      refine ⟨block, hblock, 10, by rw [hactual]; decide, ?_⟩
      rw [hbyte]
      decide
    have hreplace : [.carry ⟨.allocate, 10, 0⟩, .carry ⟨.resize, 100, 0⟩] ++
        [Act.carry ⟨.allocate, 5, 0⟩] <+: acts [0, 10, 0, 0, 2, 100, 0, 0, 0, 5, 0, 0] := by
      decide
    have hstops := watchful _ _ head hreplace (head_of_after hhead) hspoiled Heap.serve
    change head.step ⟨.allocate, 5, 0⟩ = .error .assertion at hstops
    rw [hstops] at hstep
    cases hstep

end RegionHeap.Replay
