import RegionHeap.Layout
import RegionHeap.Proofs.Heap

/-!
# One operation on a layout

Over a heap that keeps its contract every operation comes to an answer, and the
record of the client says afterwards what it should: an empty layout adds no
block to it and takes none away, any other adds the block that was answered. A
block that is resized is replaced by its successor, even if nothing is left of it.
-/
namespace RegionHeap

open Checked
open Record (Lists)

variable {σ : Type} [Heap σ] {Fits : σ → Std.TreeMap Nat Nat → Prop} {client : Client σ}
  {entries : List (Nat × Nat)}

namespace Client

structure Holds (Fits : σ → Std.TreeMap Nat Nat → Prop) (client : Client σ)
    (entries : List (Nat × Nat)) : Prop where
  fits : Fits client.heap client.held
  lists : Lists client.held entries

omit [Heap σ] in
theorem Holds.perm {others : List (Nat × Nat)} (h : client.Holds Fits entries)
    (hperm : entries.Perm others) : client.Holds Fits others := ⟨h.fits, h.lists.perm hperm⟩

namespace Holds

variable (contract : Heap.Contract Fits) {request : Request} {block size : Nat}

include contract

theorem serve_new (h : client.Holds Fits entries) (hwords : request.Words)
    (hnew : request.subject? = none) (hkeeps : request.releases = false) :
    ∃ reply, client.serve request = .ok reply ∧
      reply.state.Holds Fits ((reply.answer.map (·, request.size)).toList ++ entries) := by
  have hheld : ∀ block ∈ request.subject?, block ∈ client.held := by simp [hnew]
  obtain ⟨reply, hreply⟩ := serve_returns contract h.fits hwords hheld
  obtain ⟨met, hfits, hrecord⟩ := serve_met contract h.fits hwords hreply
  refine ⟨reply, hreply, hfits, ?_⟩
  cases hanswer : reply.answer with
  | none =>
    have hsame : recordAfter client.held request none = client.held := by
      cases request with
      | release block => cases hkeeps
      | resize block size => cases block <;> rfl
      | _ => rfl
    rw [hrecord, hanswer, hsame]
    exact h.lists
  | some new =>
    have hmore : recordAfter client.held request (some new) =
        client.held.insert new request.size := by
      cases request with
      | release block => cases hkeeps
      | resize block size =>
        obtain rfl : block = none := hnew
        rfl
      | _ => rfl
    have hfresh : client.held[new]? = none :=
      (met.fresh hanswer).resolve_right (by simp [hnew])
    rw [hrecord, hanswer, hmore]
    exact h.lists.insert hfresh

theorem serve_release (h : client.Holds Fits ((block, size) :: entries)) :
    ∃ reply, client.serve (.release (some block)) = .ok reply ∧ reply.answer = none ∧
      reply.state.Holds Fits entries := by
  have hheld : ∀ held ∈ (Request.release (some block)).subject?, held ∈ client.held := by
    intro _ hgiven
    cases hgiven
    exact Record.mem_iff.mpr ⟨size, h.lists.head⟩
  have hwords : (Request.release (some block)).Words := trivial
  obtain ⟨reply, hreply⟩ := serve_returns contract h.fits hwords hheld
  obtain ⟨met, hfits, hrecord⟩ := serve_met contract h.fits hwords hreply
  refine ⟨reply, hreply, met.silent rfl, hfits, ?_⟩
  rw [hrecord]
  exact h.lists.erase

theorem serve_resize {new : Nat} (h : client.Holds Fits ((block, size) :: entries))
    (hword : new < Word.bound) :
    ∃ reply, client.serve (.resize (some block) new) = .ok reply ∧
      reply.state.Holds Fits (((reply.answer.map (·, new)).getD (block, size)) :: entries) := by
  have hheld : ∀ held ∈ (Request.resize (some block) new).subject?, held ∈ client.held := by
    intro _ hgiven
    cases hgiven
    exact Record.mem_iff.mpr ⟨size, h.lists.head⟩
  have hwords : (Request.resize (some block) new).Words := hword
  obtain ⟨reply, hreply⟩ := serve_returns contract h.fits hwords hheld
  obtain ⟨met, hfits, hrecord⟩ := serve_met contract h.fits hwords hreply
  refine ⟨reply, hreply, hfits, ?_⟩
  cases hanswer : reply.answer with
  | none =>
    rw [hrecord, hanswer]
    exact h.lists
  | some moved =>
    rw [hrecord, hanswer]
    refine h.lists.erase.insert ?_
    rw [Record.getElem?_erase]
    rcases met.fresh hanswer with hnone | hsame
    · rw [hnone, ite_self]
    · rw [if_pos (Option.some.inj hsame)]

theorem copy {target source targetSize sourceSize : Nat} (h : client.Holds Fits entries)
    (len : Nat) (htarget : (target, targetSize) ∈ entries) (hsource : (source, sourceSize) ∈ entries)
    (hlenTarget : len ≤ targetSize) (hlenSource : len ≤ sourceSize) :
    ∃ next, client.copy target source len = .ok next ∧ next.Holds Fits entries := by
  have hcovers : ∀ {block size}, (block, size) ∈ entries → len ≤ size →
      client.covers block 0 len := fun hmem hlen =>
    covers_iff.mpr (.inr ⟨_, h.lists.iff.mpr hmem, by omega⟩)
  refine ⟨client.withMemory ((Heap.memory client.heap).copy target source len), ?_,
    contract.write h.fits fun address hfree => ?_, h.lists⟩
  · rw [Client.copy, require_of .strayAccess (hcovers hsource hlenSource), ok_bind,
      require_of .strayAccess (hcovers htarget hlenTarget), ok_bind, pure_eq_ok]
  · refine (Memory.byte_copy ..).trans (if_neg fun hinside => ?_)
    exact hfree target targetSize (h.lists.iff.mpr htarget) ⟨by omega, by omega⟩

end Holds

end Client

/-- An address with the layout that it was obtained or last resized with. -/
structure Pointer where
  address : Nat
  layout : Layout
deriving Repr, DecidableEq

/-- The block that stands behind a pointer, unless its layout is empty. -/
def Pointer.block? (pointer : Pointer) : Option (Nat × Nat) :=
  if pointer.layout.size = 0 then none else some (pointer.address, pointer.layout.size)

namespace Layout

theorem Valid.words {layout : Layout} (h : layout.Valid) :
    layout.align < Word.bound ∧ layout.size < Word.bound := by
  have hsum := h.2
  have hbound : 1 <<< 63 < Word.bound := by decide
  omega

theorem block?_of_pos {layout : Layout} (hpos : layout.size ≠ 0) (address : Nat) :
    (Pointer.mk address layout).block? = some (address, layout.size) := if_neg hpos

section operations

variable (contract : Heap.Contract Fits) {layout : Layout} {pointer : Pointer} {size : Nat}

include contract

theorem serve_spec (h : client.Holds Fits entries) (request : Request) (hwords : request.Words)
    (hnew : request.subject? = none) (hkeeps : request.releases = false)
    (hsize : request.size = layout.size) (hpos : layout.size ≠ 0) :
    ∃ reply, client.serve request = .ok reply ∧
      reply.state.Holds Fits
        ((reply.answer.bind fun new => (Pointer.mk new layout).block?).toList ++ entries) ∧
      (layout.size = 0 → reply.answer = some layout.dangling) := by
  obtain ⟨reply, hreply, holds⟩ := h.serve_new contract hwords hnew hkeeps
  refine ⟨reply, hreply, ?_, (absurd · hpos)⟩
  cases hanswer : reply.answer with
  | none => rwa [hanswer] at holds
  | some new =>
    rw [hanswer, hsize] at holds
    rwa [Option.bind_some, block?_of_pos hpos]

/-- An empty layout gets its dangling address, any other a block or a refusal. -/
theorem allocate_spec (h : client.Holds Fits entries) (hvalid : layout.Valid) :
    ∃ reply, layout.allocate client = .ok reply ∧
      reply.state.Holds Fits
        ((reply.answer.bind fun new => (Pointer.mk new layout).block?).toList ++ entries) ∧
      (layout.size = 0 → reply.answer = some layout.dangling) := by
  obtain ⟨halign, hsize⟩ := hvalid.words
  unfold allocate
  by_cases hempty : layout.size = 0
  · refine ⟨_, if_pos hempty, ?_, fun _ => rfl⟩
    simpa [Pointer.block?, hempty] using h
  · rw [if_neg hempty]
    split
    · exact serve_spec contract h (.allocate layout.size) hsize rfl rfl rfl hempty
    · exact serve_spec contract h (.allocateAligned layout.align layout.size) ⟨halign, hsize⟩
        rfl rfl rfl hempty

theorem allocateZeroed_spec (h : client.Holds Fits entries) (hvalid : layout.Valid) :
    ∃ reply, layout.allocateZeroed client = .ok reply ∧
      reply.state.Holds Fits
        ((reply.answer.bind fun new => (Pointer.mk new layout).block?).toList ++ entries) ∧
      (layout.size = 0 → reply.answer = some layout.dangling) := by
  obtain ⟨halign, hsize⟩ := hvalid.words
  have hone : 1 < Word.bound := by decide
  unfold allocateZeroed
  by_cases hempty : layout.size = 0
  · refine ⟨_, if_pos hempty, ?_, fun _ => rfl⟩
    simpa [Pointer.block?, hempty] using h
  · rw [if_neg hempty]
    split
    · exact serve_spec contract h (.allocateZeroed 1 layout.size) ⟨hone, hsize⟩
        rfl rfl (Nat.one_mul _) hempty
    · exact serve_spec contract h (.allocateZeroedAligned layout.align 1 layout.size)
        ⟨halign, hone, hsize⟩ rfl rfl (Nat.one_mul _) hempty

theorem release_spec (h : client.Holds Fits (pointer.block?.toList ++ entries)) :
    ∃ reply, pointer.layout.release pointer.address client = .ok reply ∧ reply.answer = none ∧
      reply.state.Holds Fits entries := by
  unfold release
  by_cases hempty : pointer.layout.size = 0
  · rw [Pointer.block?, if_pos hempty] at h
    exact ⟨_, if_pos hempty, rfl, h⟩
  · rw [if_neg hempty]
    rw [Pointer.block?, if_neg hempty] at h
    exact h.serve_release contract

theorem move_spec {block old : Nat} (h : client.Holds Fits ((block, old) :: entries))
    (hvalid : (Layout.mk size layout.align).Valid) (hold : layout.size = old) :
    ∃ reply, layout.move block size client = .ok reply ∧
      reply.state.Holds Fits (((reply.answer.map (·, size)).getD (block, old)) :: entries) := by
  obtain ⟨halign, hsize⟩ := hvalid.words
  obtain ⟨fresh, hfresh, holds⟩ := h.serve_new contract
    (show (Request.allocateAligned layout.align size).Words from ⟨halign, hsize⟩) rfl rfl
  rw [move, hfresh, ok_bind]
  cases hanswer : fresh.answer with
  | none =>
    rw [hanswer] at holds
    refine ⟨fresh, rfl, ?_⟩
    rwa [hanswer]
  | some target =>
    rw [hanswer] at holds
    obtain ⟨copied, hcopied, holds⟩ := holds.copy contract (min layout.size size)
      List.mem_cons_self (List.mem_cons_of_mem _ List.mem_cons_self)
      (Nat.min_le_right _ _) (hold ▸ Nat.min_le_left _ _)
    obtain ⟨released, hreleased, -, holds⟩ :=
      (holds.perm (List.Perm.swap ..)).serve_release contract
    refine ⟨⟨some target, released.state, fresh.events ++ released.events⟩, ?_, holds⟩
    dsimp only
    rw [hcopied, ok_bind, hreleased, ok_bind, pure_eq_ok]

/-- A pointer that is resized leads to what is obtained anew if there was nothing behind it,
and otherwise to a block of the new size, be it none. A refusal changes nothing. -/
theorem resize_spec (h : client.Holds Fits (pointer.block?.toList ++ entries))
    (hvalid : (Layout.mk size pointer.layout.align).Valid) :
    ∃ reply, pointer.layout.resize pointer.address size client = .ok reply ∧
      match reply.answer with
      | none => reply.state.Holds Fits (pointer.block?.toList ++ entries)
      | some new =>
        if pointer.layout.size = 0 then
          reply.state.Holds Fits
            ((Pointer.mk new ⟨size, pointer.layout.align⟩).block?.toList ++ entries) ∧
          (size = 0 → new = pointer.layout.align)
        else reply.state.Holds Fits ((new, size) :: entries) := by
  have hword := hvalid.words.2
  unfold resize
  by_cases hempty : pointer.layout.size = 0
  · rw [if_pos hempty]
    have hnone : pointer.block? = none := if_pos hempty
    rw [hnone] at h
    obtain ⟨reply, hreply, holds, hdangling⟩ := allocate_spec contract h hvalid
    refine ⟨reply, hreply, ?_⟩
    cases hanswer : reply.answer with
    | none =>
      rw [hanswer] at holds
      rwa [hnone]
    | some new =>
      rw [hanswer] at holds hdangling
      simp only [if_pos hempty]
      exact ⟨holds, fun hzero => Option.some.inj (hdangling hzero)⟩
  · have hsome : pointer.block? = some (pointer.address, pointer.layout.size) := if_neg hempty
    rw [hsome] at h ⊢
    have hresult : ∃ reply, (if pointer.layout.align ≤ Word.minAlign
        then client.serve (.resize (some pointer.address) size)
        else pointer.layout.move pointer.address size client) = .ok reply ∧
        reply.state.Holds Fits
          (((reply.answer.map (·, size)).getD (pointer.address, pointer.layout.size)) ::
            entries) := by
      split
      · exact h.serve_resize contract hword
      · exact move_spec contract h hvalid rfl
    obtain ⟨reply, hreply, holds⟩ := hresult
    rw [if_neg hempty]
    refine ⟨reply, hreply, ?_⟩
    cases hanswer : reply.answer with
    | none => rwa [hanswer] at holds
    | some new =>
      rw [hanswer] at holds
      simp only [if_neg hempty]
      exact holds

end operations

end Layout

end RegionHeap
