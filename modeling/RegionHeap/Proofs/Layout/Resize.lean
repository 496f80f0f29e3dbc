import RegionHeap.Proofs.Contents
import RegionHeap.Proofs.Layout.Lifecycle

/-!
# Resizing by layout

A pointer is resized in one of three ways. If its layout is empty, a block is obtained as if
there were no pointer, and its address is never looked at. If its alignment is small, the heap
resizes the block. Otherwise the block is moved by hand: a new one is obtained with the
alignment, the bytes that both have room for are copied, and then the old one is released, so
a refusal comes before anything has changed. Each way leads to an address with the alignment
of the layout, which is why the alignment outlasts any number of resizes, although a heap
aligns a resized block only to sixteen bytes.
-/
namespace RegionHeap.Layout

open Checked
open Framed (onBreak_fresh)
open Growth (Break)
open Sized (TopSpace)

variable {σ : Type} [Heap σ] {Fits : σ → Std.TreeMap Nat Nat → Prop} {client : Client σ}
  {layout : Layout} {pointer : Pointer} {size : Nat} {reply : Reply (Option Nat) (Client σ)}
  {deeds : List Deed}

/-- The request for a block of a layout that is not empty. -/
def request (layout : Layout) : Request :=
  if layout.align ≤ Word.minAlign then .allocate layout.size
  else .allocateAligned layout.align layout.size

theorem allocate_of_pos (h : layout.size ≠ 0) (client : Client σ) :
    layout.allocate client = client.serve layout.request := by
  rw [allocate, if_neg h, request]
  split <;> rfl

theorem subject?_request (layout : Layout) : layout.request.subject? = none := by
  rw [request]
  split <;> rfl

theorem releases_request (layout : Layout) : layout.request.releases = false := by
  rw [request]
  split <;> rfl

theorem size_request (layout : Layout) : layout.request.size = layout.size := by
  rw [request]
  split <;> rfl

theorem Valid.words_resize {align : Nat} (h : (Layout.mk size align).Valid)
    (block : Option Nat) : (Request.resize block size).Words := h.words.2

theorem Valid.words_aligned {align : Nat} (h : (Layout.mk size align).Valid) :
    (Request.allocateAligned align size).Words := h.words

theorem Valid.words_request (h : layout.Valid) : layout.request.Words := by
  rw [request]
  split
  · exact h.words.2
  · exact h.words

/-- Everything that a resize asks of the heap, in the order in which it asks for it. -/
inductive Carried (pointer : Pointer) (size : Nat) (client : Client σ) :
    Reply (Option Nat) (Client σ) → Prop
  /-- There is no block, whatever the address is, so one is obtained. -/
  | afresh {reply : Reply (Option Nat) (Client σ)} : pointer.layout.size = 0 →
      (∀ address, pointer.layout.resize address size client = .ok reply) →
      (Layout.mk size pointer.layout.align).allocate client = .ok reply →
      Carried pointer size client reply
  | byHeap {reply : Reply (Option Nat) (Client σ)} : pointer.layout.size ≠ 0 →
      pointer.layout.align ≤ Word.minAlign →
      client.serve (.resize (some pointer.address) size) = .ok reply →
      Carried pointer size client reply
  /-- There is no new block, and nothing else is asked for. -/
  | refused {reply : Reply (Option Nat) (Client σ)} : pointer.layout.size ≠ 0 →
      client.serve (.allocateAligned pointer.layout.align size) = .ok reply →
      reply.answer = none → Carried pointer size client reply
  /-- What is copied lies in both blocks, which have no byte in common. -/
  | moved {fresh released : Reply (Option Nat) (Client σ)} {copied : Client σ} {new : Nat} :
      pointer.layout.size ≠ 0 →
      client.serve (.allocateAligned pointer.layout.align size) = .ok fresh →
      fresh.answer = some new →
      fresh.state.held[pointer.address]? = some pointer.layout.size →
      fresh.state.held[new]? = some size →
      (∀ {i j : Nat}, i < pointer.layout.size → j < size → pointer.address + i ≠ new + j) →
      fresh.state.copy new pointer.address (min pointer.layout.size size) = .ok copied →
      copied.serve (.release (some pointer.address)) = .ok released →
      Carried pointer size client ⟨some new, released.state, fresh.events ++ released.events⟩

/-- What is asked for without an alignment is aligned as every small alignment wants it. -/
theorem aligned_of_plain (granular : Heap.Granular Fits) (hfits : Fits client.heap client.held)
    {request : Request} (hwords : request.Words) (hplain : request.plain) {align new : Nat}
    (hpower : Word.isPowerOfTwo align) (hsmall : align ≤ Word.minAlign)
    (hserve : client.serve request = .ok reply) (hanswer : reply.answer = some new) :
    new % align = 0 := by
  obtain ⟨hheld, inner, hinner, rfl⟩ := Client.serve_eq_ok.mp hserve
  have hleast := granular hfits hwords hheld hplain hinner hanswer
  have hdvd := Word.dvd_of_isPowerOfTwo hpower (by decide) hsmall
  exact Nat.mod_eq_zero_of_dvd (Nat.dvd_trans hdvd (Nat.dvd_of_mod_eq_zero hleast))

omit [Heap σ] in
theorem held_of_block {entries : List (Nat × Nat)}
    (h : client.Holds Fits (pointer.block?.toList ++ entries)) (hblock : pointer.layout.size ≠ 0) :
    client.held[pointer.address]? = some pointer.layout.size := by
  rw [Pointer.block?, if_neg hblock] at h
  exact h.lists.head

section operations

variable {entries : List (Nat × Nat)} (contract : Heap.Contract Fits)

include contract

theorem carried_move (h : client.Holds Fits ((pointer.address, pointer.layout.size) :: entries))
    (hvalid : (Layout.mk size pointer.layout.align).Valid) (hblock : pointer.layout.size ≠ 0)
    (hmove : pointer.layout.move pointer.address size client = .ok reply) :
    Carried pointer size client reply := by
  obtain ⟨fresh, hfresh, hmove⟩ := bind_eq_ok.mp hmove
  obtain ⟨same, hsame, holds⟩ := h.serve_new contract hvalid.words_aligned rfl rfl
  obtain rfl : fresh = same := Except.ok.inj (hfresh.symm.trans hsame)
  cases hanswer : fresh.answer with
  | none =>
    rw [hanswer] at hmove
    obtain rfl := Except.ok.inj hmove
    exact .refused hblock hfresh hanswer
  | some new =>
    rw [hanswer] at hmove holds
    obtain ⟨copied, hcopied, hmove⟩ := bind_eq_ok.mp hmove
    obtain ⟨released, hreleased, hmove⟩ := bind_eq_ok.mp hmove
    obtain rfl := Except.ok.inj hmove
    have hnew : fresh.state.held[new]? = some size := holds.lists.head
    have hold : fresh.state.held[pointer.address]? = some pointer.layout.size :=
      holds.lists.iff.mpr (List.mem_cons_of_mem _ List.mem_cons_self)
    have hne : pointer.address ≠ new := by
      intro heq
      rw [heq] at holds
      exact holds.lists.none_of_head List.mem_cons_self
    exact .moved hblock hfresh hanswer hold hnew (contract.apart holds.fits hold hnew hne)
      hcopied hreleased

theorem carried (h : client.Holds Fits (pointer.block?.toList ++ entries))
    (hvalid : (Layout.mk size pointer.layout.align).Valid)
    (hresize : pointer.layout.resize pointer.address size client = .ok reply) :
    Carried pointer size client reply := by
  by_cases hempty : pointer.layout.size = 0
  · have hall : ∀ address, pointer.layout.resize address size client =
        (Layout.mk size pointer.layout.align).allocate client := fun _ => if_pos hempty
    rw [hall] at hresize
    exact .afresh hempty (fun address => (hall address).trans hresize) hresize
  · rw [resize, if_neg hempty] at hresize
    rw [Pointer.block?, if_neg hempty] at h
    by_cases hsmall : pointer.layout.align ≤ Word.minAlign
    · rw [if_pos hsmall] at hresize
      exact .byHeap hempty hsmall hresize
    · rw [if_neg hsmall] at hresize
      exact carried_move contract h hvalid hempty hresize

/-- What is copied from a block to a new one is copied for good, and nothing else changes. -/
theorem contents_copy {target source len : Nat} {next : Client σ} {before old : List UInt8}
    (hfits : Fits client.heap client.held) (hcopy : client.copy target source len = .ok next)
    (hold : client.contents source = some old) (htarget : client.contents target = some before)
    (hlenOld : len ≤ old.length) (hlenBefore : len ≤ before.length) :
    Fits next.heap next.held ∧
      ∃ after : List UInt8, after.length = before.length ∧ after.take len = old.take len ∧
        next.contents = Function.update client.contents target (some after) := by
  obtain ⟨_, -, hcopy⟩ := bind_eq_ok.mp hcopy
  -- A copy is an update that writes what is read at the source.
  have hupdate : client.update target 0 len (fun address =>
      (Heap.memory client.heap).byte (source + (address - target))) = .ok next := hcopy
  have hstep := (Client.step_update contract hfits hupdate).of_write htarget
  refine ⟨Client.fits_update contract hfits hupdate, _, ?_, ?_, hstep⟩
  · rw [Contents.overwrite, List.length_mapIdx]
  · obtain ⟨-, hbytes⟩ := Client.of_contents_eq_some hold
    rw [hbytes, Memory.take_bytes _ _ _ hlenOld]
    apply List.ext_getElem
    · rw [List.length_take, Contents.overwrite, List.length_mapIdx, Memory.length_bytes,
        Nat.min_eq_left hlenBefore]
    · intro i hi hlen
      rw [Memory.length_bytes] at hlen
      simp only [List.getElem_take, Contents.overwrite, List.getElem_mapIdx, Memory.bytes,
        List.getElem_map, List.getElem_range', Nat.one_mul]
      rw [if_pos (by omega), Nat.add_sub_cancel_left]

theorem aligned_of_request (granular : Heap.Granular Fits)
    (hfits : Fits client.heap client.held) (hvalid : layout.Valid)
    (hserve : client.serve layout.request = .ok reply) {new : Nat}
    (hanswer : reply.answer = some new) : new % layout.align = 0 := by
  have hwords := hvalid.words_request
  rw [request] at hserve hwords
  by_cases hsmall : layout.align ≤ Word.minAlign
  · rw [if_pos hsmall] at hserve hwords
    exact aligned_of_plain granular hfits hwords rfl hvalid.1 hsmall hserve hanswer
  · rw [if_neg hsmall] at hserve hwords
    obtain ⟨met, -⟩ := Client.serve_met contract hfits hwords hserve
    exact met.aligned rfl hvalid.1 hanswer

theorem Carried.aligned (granular : Heap.Granular Fits) (hfits : Fits client.heap client.held)
    (hvalid : (Layout.mk size pointer.layout.align).Valid)
    (h : Carried pointer size client reply) {new : Nat} (hanswer : reply.answer = some new) :
    new % pointer.layout.align = 0 := by
  cases h with
  | afresh _ _ hallocate =>
    rcases Nat.eq_zero_or_pos size with rfl | hpos
    · obtain rfl := Except.ok.inj hallocate
      obtain rfl := Option.some.inj hanswer
      exact Nat.mod_self _
    · rw [allocate_of_pos (Nat.ne_of_gt hpos)] at hallocate
      exact aligned_of_request contract granular hfits hvalid hallocate hanswer
  | byHeap _ hsmall hserve =>
    exact aligned_of_plain granular hfits (hvalid.words_resize _) rfl hvalid.1 hsmall hserve hanswer
  | refused _ _ hnone => cases hnone.symm.trans hanswer
  | moved _ hfresh hnew =>
    obtain rfl := Option.some.inj hanswer
    obtain ⟨met, -⟩ := Client.serve_met contract hfits hvalid.words_aligned hfresh
    exact met.aligned rfl hvalid.1 hnew

theorem Carried.unchanged (hfits : Fits client.heap client.held)
    (hvalid : (Layout.mk size pointer.layout.align).Valid)
    (h : Carried pointer size client reply) (hanswer : reply.answer = none) :
    reply.state.contents = client.contents := by
  cases h with
  | afresh _ _ hallocate =>
    rcases Nat.eq_zero_or_pos size with rfl | hpos
    · obtain rfl := Except.ok.inj hallocate
      cases hanswer
    · rw [allocate_of_pos (Nat.ne_of_gt hpos)] at hallocate
      exact Client.contents_of_refused contract hfits hvalid.words_request (releases_request _)
        hallocate hanswer
  | byHeap _ _ hserve =>
    exact Client.contents_of_refused contract hfits (hvalid.words_resize _) rfl hserve hanswer
  | refused _ hserve hnone =>
    exact Client.contents_of_refused contract hfits hvalid.words_aligned rfl hserve hnone
  | moved => cases hanswer

/-- Where the block is after a resize, and what has become of all blocks. -/
structure Placed (pointer : Pointer) (size new : Nat) (client next : Client σ) : Prop where
  /-- The address was free, or it is that of the old block. -/
  place : client.contents new = none ∨ pointer.block? = some (new, pointer.layout.size)
  /-- The old block is gone, the new one has what both have room for, and all others are as
  they were. -/
  contents : ∃ bytes : List UInt8, bytes.length = size ∧
    next.contents = Function.update
      (client.contents.without (pointer.block?.map Prod.fst)) new (some bytes) ∧
    ∀ before, pointer.layout.size ≠ 0 → client.contents pointer.address = some before →
      bytes.take (min pointer.layout.size size) = before.take (min pointer.layout.size size)

theorem placed_afresh (hfits : Fits client.heap client.held) (hvalid : layout.Valid)
    (hempty : pointer.layout.size = 0) (hserve : client.serve layout.request = .ok reply)
    {new : Nat} (hanswer : reply.answer = some new) :
    Placed pointer layout.size new client reply.state := by
  have hstep := Client.step_serve contract hfits hvalid.words_request hserve
  rw [hanswer] at hstep
  obtain ⟨hfree, bytes, hlength, -, hnext⟩ := hstep.of_new (subject?_request layout)
  refine ⟨.inl hfree, bytes, hlength.trans (size_request layout), ?_, fun _ hsome => ?_⟩
  · rw [Pointer.block?, if_pos hempty]
    exact hnext
  · exact absurd hempty hsome

theorem placed_byHeap (hfits : Fits client.heap client.held)
    (hword : (Request.resize (some pointer.address) size).Words)
    (hblock : pointer.layout.size ≠ 0)
    (hheld : client.held[pointer.address]? = some pointer.layout.size)
    (hserve : client.serve (.resize (some pointer.address) size) = .ok reply)
    {new : Nat} (hanswer : reply.answer = some new) :
    Placed pointer size new client reply.state := by
  have hstep := Client.step_serve contract hfits hword hserve
  rw [hanswer] at hstep
  obtain ⟨old, bytes, hold, hplace, hlength, hkept, hnext⟩ := hstep.of_resize
  have hsize : old.length = pointer.layout.size :=
    Option.some.inj ((Client.of_contents_eq_some hold).1.symm.trans hheld)
  rw [hsize] at hkept
  have hsome : pointer.block? = some (pointer.address, pointer.layout.size) := if_neg hblock
  refine ⟨?_, bytes, hlength, ?_, fun before _ hbefore => ?_⟩
  · rcases hplace with rfl | hfree
    · exact .inr hsome
    · exact .inl hfree
  · rw [hsome]
    exact hnext
  · rw [Option.some.inj (hbefore.symm.trans hold)]
    exact hkept

theorem placed_moved {fresh released : Reply (Option Nat) (Client σ)} {copied : Client σ}
    {new : Nat} (hfits : Fits client.heap client.held)
    (hword : (Request.allocateAligned pointer.layout.align size).Words)
    (hblock : pointer.layout.size ≠ 0)
    (hheld : client.held[pointer.address]? = some pointer.layout.size)
    (hfresh : client.serve (.allocateAligned pointer.layout.align size) = .ok fresh)
    (hnew : fresh.answer = some new)
    (hcopy : fresh.state.copy new pointer.address (min pointer.layout.size size) = .ok copied)
    (hrelease : copied.serve (.release (some pointer.address)) = .ok released) :
    Placed pointer size new client released.state := by
  have hstep := Client.step_serve contract hfits hword hfresh
  obtain ⟨-, hfitsFresh, -⟩ := Client.serve_met contract hfits hword hfresh
  rw [hnew] at hstep
  obtain ⟨hfree, blank, hlength, -, hafter⟩ := hstep.of_new rfl
  have hold := Client.contents_eq_some hheld
  have hne : pointer.address ≠ new := by
    rintro rfl
    cases hold.symm.trans hfree
  have holdFresh : fresh.state.contents pointer.address = _ :=
    (congrFun hafter _).trans ((Function.update_of_ne hne _ _).trans hold)
  have hblank : fresh.state.contents new = some blank :=
    (congrFun hafter _).trans (Function.update_self ..)
  obtain ⟨hfitsCopied, bytes, hbytes, hkept, hcopied⟩ := contents_copy contract hfitsFresh hcopy
    holdFresh hblank (by rw [Memory.length_bytes]; exact Nat.min_le_left _ _)
    (hlength ▸ Nat.min_le_right _ _)
  have hwords : (Request.release (some pointer.address)).Words := trivial
  have hgone := Client.step_serve contract hfitsCopied hwords hrelease
  obtain ⟨met, -⟩ := Client.serve_met contract hfitsCopied hwords hrelease
  rw [met.silent rfl] at hgone
  have hsome : pointer.block? = some (pointer.address, pointer.layout.size) := if_neg hblock
  refine ⟨.inl hfree, bytes, hbytes.trans hlength, ?_, fun before _ hbefore => ?_⟩
  · rw [hgone.of_release, hcopied, hafter, Function.update_idem, hsome]
    exact Function.update_comm hne.symm _ _ _
  · rw [Option.some.inj (hbefore.symm.trans hold)]
    exact hkept

theorem Carried.placed (h : client.Holds Fits (pointer.block?.toList ++ entries))
    (hvalid : (Layout.mk size pointer.layout.align).Valid) (hpos : 0 < size)
    (hcarried : Carried pointer size client reply) {new : Nat} (hanswer : reply.answer = some new) :
    Placed pointer size new client reply.state := by
  cases hcarried with
  | afresh hempty _ hallocate =>
    rw [allocate_of_pos (Nat.ne_of_gt hpos)] at hallocate
    exact placed_afresh contract h.fits hvalid hempty hallocate hanswer
  | byHeap hblock _ hserve =>
    exact placed_byHeap contract h.fits (hvalid.words_resize _) hblock (held_of_block h hblock)
      hserve hanswer
  | refused _ _ hnone => cases hnone.symm.trans hanswer
  | moved hblock hfresh hnew _ _ _ hcopy hrelease =>
    obtain rfl := Option.some.inj hanswer
    have hplaced := placed_moved contract h.fits hvalid.words_aligned hblock
      (held_of_block h hblock) hfresh hnew hcopy hrelease
    exact hplaced

structure Resized (pointer : Pointer) (size new : Nat) (client next : Client σ) : Prop
    extends Placed pointer size new client next where
  aligned : new % pointer.layout.align = 0
  apart : ∀ {other bytes}, next.contents other = some bytes → other ≠ new →
    ∀ {i j : Nat}, i < size → j < bytes.length → new + i ≠ other + j

structure Settled (pointer : Pointer) (size : Nat) (client : Client σ)
    (reply : Reply (Option Nat) (Client σ)) : Prop where
  carried : Carried pointer size client reply
  /-- The block behind the pointer is live, with a byte for each that its layout says. -/
  live : pointer.layout.size ≠ 0 → ∃ before : List UInt8,
    client.contents pointer.address = some before ∧ before.length = pointer.layout.size
  refused : reply.answer = none → reply.state.contents = client.contents
  answered : ∀ {new}, reply.answer = some new → Resized pointer size new client reply.state

theorem settled (granular : Heap.Granular Fits)
    (h : client.Holds Fits (pointer.block?.toList ++ entries))
    (hvalid : (Layout.mk size pointer.layout.align).Valid) (hpos : 0 < size) :
    ∃ reply, pointer.layout.resize pointer.address size client = .ok reply ∧
      Settled pointer size client reply := by
  obtain ⟨reply, hreply, hresult⟩ := resize_spec contract h hvalid
  have hcarried := carried contract h hvalid hreply
  refine ⟨reply, hreply, hcarried, fun hblock => ?_, hcarried.unchanged contract h.fits hvalid,
    fun {new} hanswer => ?_⟩
  · have hsome := Client.contents_eq_some (held_of_block h hblock)
    exact ⟨_, hsome, Memory.length_bytes ..⟩
  · have hplaced := hcarried.placed contract h hvalid hpos hanswer
    have haligned := hcarried.aligned contract granular h.fits hvalid hanswer
    refine ⟨hplaced, haligned, fun {other bytes} hother hne {i j} hi hj => ?_⟩
    have hfits : Fits reply.state.heap reply.state.held := by
      rw [hanswer] at hresult
      dsimp only at hresult
      split at hresult
      · exact hresult.1.fits
      · exact hresult.fits
    have hnew : reply.state.held[new]? = some size := by
      obtain ⟨_, hlength, hnext, -⟩ := hplaced.contents
      have hsome := (congrFun hnext new).trans (Function.update_self ..)
      rw [(Client.of_contents_eq_some hsome).1, hlength]
    exact contract.apart hfits hnew (Client.of_contents_eq_some hother).1 hne.symm hi hj

/-- The alignment of a layout outlasts every resize of a run. -/
theorem aligned_of_mem {first : Client σ} (granular : Heap.Granular Fits)
    (hfirst : first.Holds Fits []) (hrun : Run first deeds client) {new : Nat}
    (hmem : Deed.resized pointer size (some new) ∈ deeds) : new % pointer.layout.align = 0 := by
  induction hrun with
  | start => cases hmem
  | allocate _ _ _ ih => exact ih (by simpa using hmem)
  | allocateZeroed _ _ _ ih => exact ih (by simpa using hmem)
  | resize other hrun hlive hvalid hresize ih =>
    rcases List.mem_append.mp hmem with hearlier | hlast
    · exact ih hearlier
    · obtain ⟨rfl, rfl, hanswer⟩ := Deed.resized.inj (List.mem_singleton.mp hlast)
      have holds := (hrun.account contract hfirst).split hlive
      exact (carried contract holds hvalid hresize).aligned contract granular holds.fits hvalid
        hanswer.symm
  | release _ _ _ _ ih => exact ih (by simpa using hmem)
  | write _ _ ih => exact ih hmem

/-- Over a heap that keeps its contract, in every run of operations on layouts, each live
pointer can be resized to any positive number of bytes that is valid with its alignment. It is
refused, and no block has changed; or the answer has the alignment of the layout, and the block
there has the bytes that both sizes have room for and lies apart from all others, which are as
they were. The old block is released once, after the copy, which stays within both blocks. An
empty layout has no block, and its address is not even looked at. -/
theorem resizes_of_run (granular : Heap.Granular Fits) {start : σ} (hstart : Fits start ∅)
    (hrun : Run ⟨start, ∅⟩ deeds client) :
    (∀ pointer ∈ liveAfter deeds, ∀ {size}, 0 < size →
      (Layout.mk size pointer.layout.align).Valid →
      ∃ reply, pointer.layout.resize pointer.address size client = .ok reply ∧
        Settled pointer size client reply) ∧
    ∀ {pointer size new}, Deed.resized pointer size (some new) ∈ deeds →
      new % pointer.layout.align = 0 := by
  have hfirst : (Client.mk start ∅).Holds Fits [] := ⟨hstart, .nil⟩
  have account := hrun.account contract hfirst
  exact ⟨fun pointer hlive _ hpos hvalid =>
      settled contract granular (account.split hlive) hvalid hpos,
    aligned_of_mem contract granular hfirst hrun⟩

end operations

theorem onGateway_granular : Heap.Granular
    fun (gateway : Gateway (Framed TopSpace Break)) held =>
      Framed.Fits (TopSpace.Sound Break) Break.Paged gateway.bound held :=
  Gateway.passes.granular (Framed.granular TopSpace.meets_contract Break.reliable)

/-- A block that shrinks moves if its alignment is large; the one before it stays. -/
theorem resizes_of_run_shrunk : ∃ client reply, Run ⟨onGateway, ∅⟩
      [.obtained ⟨10, 8⟩ (some 0x10000000020), .obtained ⟨100, 64⟩ (some 0x10000000080)] client ∧
    (Layout.mk 100 64).resize 0x10000000080 30 client = .ok reply ∧
    Resized ⟨0x10000000080, ⟨100, 64⟩⟩ 30 0x10000000180 client reply.state := by
  have hcomputed : (do
      let first ← (Layout.mk 10 8).allocate (Client.mk onGateway ∅)
      let second ← (Layout.mk 100 64).allocate first.state
      let third ← (Layout.mk 100 64).resize 0x10000000080 30 second.state
      return (first.answer, second.answer, third.answer) : Checked _) =
      .ok (some 0x10000000020, some 0x10000000080, some 0x10000000180) := by decide +kernel
  obtain ⟨first, hfirst, hcomputed⟩ := bind_eq_ok.mp hcomputed
  obtain ⟨second, hsecond, hcomputed⟩ := bind_eq_ok.mp hcomputed
  obtain ⟨third, hthird, hanswers⟩ := bind_eq_ok.mp hcomputed
  simp only [pure_eq_ok, Except.ok.injEq, Prod.mk.injEq] at hanswers
  obtain ⟨hone, htwo, hthree⟩ := hanswers
  have hrun := (Run.start.allocate (by decide) hfirst).allocate (by decide) hsecond
  rw [hone, htwo] at hrun
  obtain ⟨hlive, -⟩ := resizes_of_run onGateway_contract onGateway_granular
    (onBreak_fresh.fits TopSpace.meets_contract) hrun
  obtain ⟨reply, hreply, hsettled⟩ := hlive ⟨0x10000000080, ⟨100, 64⟩⟩ (by decide)
    (show 0 < 30 by decide) (by decide)
  obtain rfl := Except.ok.inj (hthird.symm.trans hreply)
  exact ⟨_, _, hrun, hreply, hsettled.answered hthree⟩

end RegionHeap.Layout
