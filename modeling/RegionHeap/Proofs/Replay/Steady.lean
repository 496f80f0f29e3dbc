import RegionHeap.Proofs.Heap
import RegionHeap.Replay

/-!
# A replay between two operations

Whatever a replay has on its account, the blocks in its slots are held and
different, and the bytes that it looks at are there and are the ones that it
wrote. A request about one slot spares the blocks of all others. Hence looking
at a slot, giving it back and filling it anew keep a replay steady; the one
thing that may fail is to fill a block that is shorter than its account says.
-/
namespace RegionHeap.Replay

open Checked

variable {σ : Type} [Heap σ] {Fits : σ → Std.TreeMap Nat Nat → Prop} {replay next : Replay σ}
  {client after : Client σ} {slot other : Fin 64} {block size count offset : Nat}
  {expected : UInt8} {request : Request}

section looks

/-- The first bytes of a block, as many as are looked at for a size. -/
structure Shows (client : Client σ) (block size : Nat) (expected : UInt8) : Prop where
  room : ∃ total, client.held[block]? = some total ∧ min size window ≤ total
  bytes : ∀ {i}, i < min size window → (Heap.memory client.heap).byte (block + i) = expected

/-- While it stays inside the block, a look is at one byte after another. -/
theorem expectBytes_succ {total : Nat} (htotal : client.held[block]? = some total)
    (hinside : offset < total) :
    expectBytes client block expected offset (count + 1) = (do
      Checked.require ((Heap.memory client.heap).byte (block + offset) = expected) .assertion
      expectBytes client block expected (offset + 1) count) := by
  have hcovers : client.covers block offset 1 :=
    Client.covers_iff.mpr (.inr ⟨total, htotal, by omega⟩)
  have hread : client.read block offset 1 =
      .ok [(Heap.memory client.heap).byte (block + offset)] := by
    rw [Client.read, require_of .strayAccess hcovers]
    rfl
  rw [expectBytes, hread, ok_bind]
  simp only [List.cons.injEq, and_true]

theorem expectBytes_returns {total : Nat} (htotal : client.held[block]? = some total)
    (hroom : offset + count ≤ total)
    (hbytes : ∀ {i}, offset ≤ i → i < offset + count →
      (Heap.memory client.heap).byte (block + i) = expected) :
    expectBytes client block expected offset count = .ok () := by
  induction count generalizing offset with
  | zero => rfl
  | succ count ih =>
    rw [expectBytes_succ htotal (by omega),
      require_of .assertion (hbytes (Nat.le_refl offset) (by omega)), ok_bind]
    exact ih (by omega) fun hlow hhigh => hbytes (by omega) (by omega)

theorem Shows.check (h : Shows client block size expected) :
    check client (some block) size expected = .ok () := by
  obtain ⟨total, htotal, hroom⟩ := h.room
  exact expectBytes_returns htotal (by omega) fun _ hhigh => h.bytes (by omega)

theorem Shows.of_same (h : Shows client block size expected)
    (hheld : after.held[block]? = client.held[block]?)
    (hbytes : ∀ total, client.held[block]? = some total → ∀ {i}, i < total →
      (Heap.memory after.heap).byte (block + i) = (Heap.memory client.heap).byte (block + i)) :
    Shows after block size expected := by
  rcases h with ⟨⟨total, htotal, hroom⟩, hfilled⟩
  refine ⟨⟨total, hheld.trans htotal, hroom⟩, fun hi => ?_⟩
  rw [hbytes total htotal (by omega)]
  exact hfilled hi

end looks

/-- What a slot holds goes with the size on its account. -/
def Keeps (client : Client σ) (slot : Fin 64) (block : Option Nat) (size : Nat) : Prop :=
  match block with
  | none => size = 0
  | some block => Shows client block size (fillByte slot)

theorem Keeps.check {block : Option Nat} (h : Keeps client slot block size) :
    check client block size (fillByte slot) = .ok () := by
  cases block with
  | none =>
    obtain rfl : size = 0 := h
    exact require_of .strayAccess (Nat.zero_min window)
  | some block => exact Shows.check h

structure Stocked (Fits : σ → Std.TreeMap Nat Nat → Prop) (replay : Replay σ) : Prop where
  fits : Fits replay.client.heap replay.client.held
  held : ∀ {slot : Fin 64} {block}, replay.slots.get slot = some block → block ∈ replay.client.held
  distinct : ∀ {a b : Fin 64} {block}, replay.slots.get a = some block →
    replay.slots.get b = some block → a = b

/-- In addition, every slot goes with its account. -/
structure Steady (Fits : σ → Std.TreeMap Nat Nat → Prop) (replay : Replay σ) : Prop
    extends Stocked Fits replay where
  keeps : ∀ slot : Fin 64, Keeps replay.client slot (replay.slots.get slot) (replay.sizes.get slot)

/-- A client has the blocks of all slots but one as the replay has them. -/
def Spares (replay : Replay σ) (slot : Fin 64) (client : Client σ) : Prop :=
  ∀ other, slot ≠ other → ∀ block, replay.slots.get other = some block →
    client.held[block]? = replay.client.held[block]? ∧
    ∀ size, replay.client.held[block]? = some size → ∀ {i}, i < size →
      (Heap.memory client.heap).byte (block + i) = (Heap.memory replay.client.heap).byte (block + i)

theorem Spares.keeps {block : Option Nat} (h : replay.Spares slot client) (hne : slot ≠ other)
    (hblock : replay.slots.get other = block) (hkeeps : Keeps replay.client other block size) :
    Keeps client other block size := by
  cases block with
  | none => exact hkeeps
  | some block =>
    obtain ⟨hheld, hbytes⟩ := h other hne block hblock
    exact Shows.of_same hkeeps hheld hbytes

section settle

omit [Heap σ] in
theorem slots_settle (replay : Replay σ) (client : Client σ) (slot : Fin 64)
    (block : Option Nat) (size : Nat) (other : Fin 64) :
    (replay.settle client slot block size).slots.get other =
      if slot = other then block else replay.slots.get other := by
  rw [settle, Record.get_set]

omit [Heap σ] in
theorem sizes_settle (replay : Replay σ) (client : Client σ) (slot : Fin 64)
    (block : Option Nat) (size : Nat) (other : Fin 64) :
    (replay.settle client slot block size).sizes.get other =
      if slot = other then size else replay.sizes.get other := by
  rw [settle, Record.get_set]

omit [Heap σ] in
theorem settle_settle (replay : Replay σ) (first client : Client σ) (slot : Fin 64)
    (before block : Option Nat) (sizeBefore size : Nat) :
    (replay.settle first slot before sizeBefore).settle client slot block size =
      replay.settle client slot block size := by
  simp [settle]

omit [Heap σ] in
theorem settle_same (replay : Replay σ) (client : Client σ) (slot : Fin 64) :
    replay.settle client slot (replay.slots.get slot) (replay.sizes.get slot) =
      { replay with client := client } := by
  rw [settle, Record.set_get, Record.set_get]

theorem Stocked.settle {block : Option Nat} (stocked : replay.Stocked Fits)
    (hfits : Fits client.heap client.held) (spares : replay.Spares slot client)
    (hnew : ∀ other, slot ≠ other → ∀ address ∈ block, replay.slots.get other ≠ some address)
    (hheld : ∀ address ∈ block, address ∈ client.held) (size : Nat) :
    (replay.settle client slot block size).Stocked Fits where
  fits := hfits
  held := by
    intro other address hother
    rw [slots_settle] at hother
    split at hother
    · exact hheld address hother
    · rename_i hne
      obtain ⟨total, htotal⟩ := Record.mem_iff.mp (stocked.held hother)
      exact Record.mem_iff.mpr ⟨total, (spares other hne address hother).1.trans htotal⟩
  distinct := by
    intro a b address ha hb
    rw [slots_settle] at ha hb
    split at ha
    · rename_i hslot
      split at hb
      · rename_i hslot'
        exact hslot.symm.trans hslot'
      · rename_i hne
        exact absurd hb (hnew b hne address ha)
    · rename_i hne
      split at hb
      · exact absurd ha (hnew a hne address hb)
      · exact stocked.distinct ha hb

theorem Steady.settle {block : Option Nat} (steady : replay.Steady Fits)
    (hfits : Fits client.heap client.held) (spares : replay.Spares slot client)
    (hnew : ∀ other, slot ≠ other → ∀ address ∈ block, replay.slots.get other ≠ some address)
    (hkeeps : Keeps client slot block size) :
    (replay.settle client slot block size).Steady Fits where
  toStocked := by
    refine steady.toStocked.settle hfits spares hnew ?_ size
    intro address heq
    subst heq
    obtain ⟨total, htotal, -⟩ := hkeeps.room
    exact Record.mem_iff.mpr ⟨total, htotal⟩
  keeps := by
    intro other
    rw [slots_settle, sizes_settle]
    split
    · rename_i hslot
      exact hslot ▸ hkeeps
    · rename_i hne
      exact spares.keeps hne rfl (steady.keeps other)

end settle

structure Served (Fits : σ → Std.TreeMap Nat Nat → Prop) (replay : Replay σ) (slot : Fin 64)
    (request : Request) (reply : Reply (Option Nat) (Client σ)) : Prop where
  met : request.Met replay.client.held (Heap.memory replay.client.heap) reply.answer
    (Heap.memory reply.state.heap)
  fits : Fits reply.state.heap reply.state.held
  held : reply.state.held = Client.recordAfter replay.client.held request reply.answer
  spares : replay.Spares slot reply.state
  fresh : ∀ other, slot ≠ other → ∀ block ∈ reply.answer, replay.slots.get other ≠ some block

theorem Stocked.served (contract : Heap.Contract Fits) (stocked : replay.Stocked Fits)
    (hwords : request.Words)
    (hsubject : ∀ block ∈ request.subject?, replay.slots.get slot = some block)
    {reply : Reply (Option Nat) (Client σ)} (hreply : replay.client.serve request = .ok reply) :
    Served Fits replay slot request reply := by
  obtain ⟨met, hfits, hheld⟩ := Client.serve_met contract stocked.fits hwords hreply
  have hother : ∀ {other block}, slot ≠ other → replay.slots.get other = some block →
      request.subject? ≠ some block ∧ reply.answer ≠ some block := by
    intro other block hne hblock
    have hsubjectNe : request.subject? ≠ some block := fun heq =>
      hne (stocked.distinct (hsubject block heq) hblock)
    refine ⟨hsubjectNe, fun hanswer => ?_⟩
    obtain ⟨size, hsize⟩ := Record.mem_iff.mp (stocked.held hblock)
    rcases met.fresh hanswer with hfree | hold
    · cases hfree.symm.trans hsize
    · exact hsubjectNe hold
  refine ⟨met, hfits, hheld, ?_, ?_⟩
  · intro other hne block hblock
    obtain ⟨hsubjectNe, hanswerNe⟩ := hother hne hblock
    have hstays : request.ended? reply.answer ≠ some block := fun hended =>
      hsubjectNe (Request.subject?_of_ended? hended)
    refine ⟨?_, fun size hsize => met.kept hsize hstays⟩
    rw [hheld, Client.getElem?_recordAfter met.silent, if_neg hanswerNe, if_neg hstays]
  · intro other hne block hanswer hblock
    exact (hother hne hblock).2 hanswer

theorem Stocked.serve (contract : Heap.Contract Fits) (stocked : replay.Stocked Fits)
    (hwords : request.Words)
    (hsubject : ∀ block ∈ request.subject?, replay.slots.get slot = some block) :
    ∃ reply, replay.client.serve request = .ok reply ∧
      Served Fits replay slot request reply := by
  obtain ⟨reply, hreply⟩ := Client.serve_returns contract stocked.fits hwords fun block hblock =>
    stocked.held (hsubject block hblock)
  exact ⟨reply, hreply, stocked.served contract hwords hsubject hreply⟩

theorem refill_eq (replay : Replay σ) (client : Client σ) (slot : Fin 64) (block size : Nat) :
    (replay.settle client slot (some block) size).refill slot block = (do
      let filled ← client.fill block 0 (min size window) (fillByte slot)
      return replay.settle filled slot (some block) size) := by
  have hsize : (replay.settle client slot (some block) size).sizes.get slot = size := by
    rw [sizes_settle, if_pos rfl]
  rw [refill, hsize]
  rfl

theorem Spares.fill (contract : Heap.Contract Fits) (hfits : Fits client.heap client.held)
    (spares : replay.Spares slot client)
    (hfresh : ∀ other, slot ≠ other → replay.slots.get other ≠ some block)
    {total : Nat} (htotal : client.held[block]? = some total) (hroom : count ≤ total)
    {value : UInt8} {filled : Client σ} (hfill : client.fill block 0 count value = .ok filled) :
    replay.Spares slot filled := by
  intro other hne address haddress
  obtain ⟨hsame, hbytes⟩ := spares other hne address haddress
  refine ⟨by rw [Client.held_of_update hfill, hsame], fun length hlength i hi => ?_⟩
  have hneBlock : address ≠ block := fun heq => hfresh other hne (heq ▸ haddress)
  rw [Client.byte_of_update contract hfill, if_neg, hbytes length hlength hi]
  intro ⟨hlow, hhigh⟩
  exact contract.apart hfits (hsame.trans hlength) htotal hneBlock hi
    (j := address + i - block) (by omega) (by omega)

theorem Steady.refill (contract : Heap.Contract Fits) (steady : replay.Steady Fits)
    (hfits : Fits client.heap client.held) (spares : replay.Spares slot client)
    (hfresh : ∀ other, slot ≠ other → replay.slots.get other ≠ some block)
    {total : Nat} (htotal : client.held[block]? = some total) (hroom : min size window ≤ total) :
    ∃ filled, (replay.settle client slot (some block) size).refill slot block =
        .ok (replay.settle filled slot (some block) size) ∧
      filled.held = client.held ∧ replay.Spares slot filled ∧
      (replay.settle filled slot (some block) size).Steady Fits := by
  have hcovers : client.covers block 0 (min size window) :=
    Client.covers_iff.mpr (.inr ⟨total, htotal, by omega⟩)
  obtain ⟨filled, hfill⟩ : ∃ filled, client.fill block 0 (min size window) (fillByte slot) =
      .ok filled := ⟨_, Client.update_eq_ok.mpr ⟨hcovers, rfl⟩⟩
  have hheld := Client.held_of_update hfill
  have sparesFilled := spares.fill contract hfits hfresh htotal hroom hfill
  refine ⟨filled, by rw [refill_eq, hfill, ok_bind, pure_eq_ok], hheld, sparesFilled, ?_⟩
  refine steady.settle (Client.fits_update contract hfits hfill) sparesFilled ?_ ?_
  · intro other hne _ hgiven
    cases hgiven
    exact hfresh other hne
  · refine ⟨⟨total, by rw [hheld, htotal], hroom⟩, fun hi => ?_⟩
    rw [Client.byte_of_update contract hfill, if_pos ⟨by omega, by omega⟩]

/-- To fill a block that is shorter is to write outside of it. -/
theorem refill_short {total : Nat} (htotal : client.held[block]? = some total)
    (hshort : total < min size window) :
    (replay.settle client slot (some block) size).refill slot block = .error .strayAccess := by
  have hcovers : ¬client.covers block 0 (min size window) := by
    rw [Client.covers_iff, htotal]
    intro hcase
    rcases hcase with hnone | ⟨_, ⟨⟩, hfits⟩
    · omega
    · omega
  have hrequire : Checked.require (client.covers block 0 (min size window)) .strayAccess =
      .error .strayAccess := if_neg hcovers
  rw [refill_eq, Client.fill, Client.update, hrequire]
  rfl

end RegionHeap.Replay
