import Mathlib.Data.List.Induction
import RegionHeap.Proofs.Framed.Runs
import RegionHeap.Proofs.Replay.Steady

/-!
# The account of a replay

On account is the size that a replay believes the block of a slot to have. It
is exact as long as no block is given another size: only then does a replay
know what it has asked for. A resize that is answered leaves the old size on
account, and if the new one is shorter than what is filled, the replay writes
outside of the block. Nothing else can go wrong, and no assertion ever fails.
-/
namespace RegionHeap

open Checked
open Framed (meets_contract onBreak onBreak_fresh)
open Growth (Break)
open Sized (TopSpace)

theorem Operation.size_lt_of_mem_decode {data : List UInt8} {operation : Operation}
    (h : operation ∈ decode data) : operation.size < 65536 := by
  induction data using decode.induct with
  | case1 code low high slot rest ih =>
    rw [decode, List.mem_cons] at h
    rcases h with rfl | h
    · have hlow := low.toNat_lt
      have hhigh := high.toNat_lt
      simp only
      omega
    · exact ih h
  | case2 data hshort =>
    rw [decode] at h
    · cases h
    · exact hshort

namespace Replay

variable {σ : Type} [Heap σ] {Fits : σ → Std.TreeMap Nat Nat → Prop} {replay next head : Replay σ}
  {client : Client σ} {slot other : Fin 64} {block : Option Nat} {size total : Nat}
  {operation : Operation} {operations : List Operation} {heap : σ}

/-- The size last asked for, of the block in a slot. -/
def actual (replay : Replay σ) (slot : Fin 64) : Nat :=
  ((replay.slots.get slot).bind (replay.client.held[·]?)).getD 0

/-- For every slot the account has the actual size. -/
def Exact (replay : Replay σ) : Prop := ∀ slot : Fin 64, replay.sizes.get slot = replay.actual slot

/-- The next replay is steady and differs in one slot at most. -/
structure Turned (Fits : σ → Std.TreeMap Nat Nat → Prop) (replay : Replay σ) (slot : Fin 64)
    (size total : Nat) (next : Replay σ) : Prop where
  steady : next.Steady Fits
  sizes : next.sizes.get slot = size
  actual : next.actual slot = total
  others : ∀ other, slot ≠ other →
    next.sizes.get other = replay.sizes.get other ∧ next.actual other = replay.actual other

theorem Turned.trans {sizeBefore totalBefore : Nat}
    (h : Turned Fits replay slot sizeBefore totalBefore next)
    (hlast : Turned Fits next slot size total head) : Turned Fits replay slot size total head where
  steady := hlast.steady
  sizes := hlast.sizes
  actual := hlast.actual
  others other hne := ⟨(hlast.others other hne).1.trans (h.others other hne).1,
    (hlast.others other hne).2.trans (h.others other hne).2⟩

theorem Steady.turned (steady : (replay.settle client slot block size).Steady Fits)
    (spares : replay.Spares slot client)
    (htotal : (block.bind (client.held[·]?)).getD 0 = total) :
    Turned Fits replay slot size total (replay.settle client slot block size) where
  steady := steady
  sizes := by rw [sizes_settle, if_pos rfl]
  actual := by
    rw [Replay.actual, slots_settle, if_pos rfl]
    exact htotal
  others := by
    intro other hne
    rw [sizes_settle, if_neg hne, Replay.actual, slots_settle, if_neg hne]
    refine ⟨rfl, ?_⟩
    cases hother : replay.slots.get other with
    | none => rw [Replay.actual, hother]; rfl
    | some address =>
      rw [Replay.actual, hother]
      exact congrArg (·.getD 0) (spares other hne address hother).1

theorem Turned.exact_iff (h : Turned Fits replay slot size total next) (exact : replay.Exact) :
    next.Exact ↔ size = total := by
  constructor
  · intro hnext
    rw [← h.sizes, ← h.actual, hnext slot]
  · intro hsame other
    by_cases hother : slot = other
    · rw [← hother, h.sizes, h.actual, hsame]
    · rw [(h.others other hother).1, (h.others other hother).2, exact other]

theorem Steady.turned_release (steady : replay.Steady Fits)
    {reply : Reply (Option Nat) (Client σ)}
    (served : Served Fits replay slot (.release (replay.slots.get slot)) reply) :
    Turned Fits replay slot 0 0 (replay.settle reply.state slot none 0) := by
  have hkeeps : Keeps reply.state slot none 0 := rfl
  exact (steady.settle served.fits served.spares (by simp) hkeeps).turned served.spares rfl

theorem Stocked.serve_release (contract : Heap.Contract Fits) (stocked : replay.Stocked Fits)
    (slot : Fin 64) :
    ∃ reply, replay.client.serve (.release (replay.slots.get slot)) = .ok reply ∧
      Served Fits replay slot (.release (replay.slots.get slot)) reply :=
  have hwords : (Request.release (replay.slots.get slot)).Words := trivial
  stocked.serve contract hwords fun _ h => h

theorem releaseSlot_turned (contract : Heap.Contract Fits) (steady : replay.Steady Fits)
    (slot : Fin 64) :
    ∃ next, replay.releaseSlot slot = .ok next ∧ Turned Fits replay slot 0 0 next := by
  obtain ⟨reply, hreply, served⟩ := steady.serve_release contract slot
  refine ⟨replay.settle reply.state slot none 0, ?_, steady.turned_release served⟩
  rw [releaseSlot, (steady.keeps slot).check, ok_bind, hreply, ok_bind, pure_eq_ok]

section obtains

variable (operation : Operation)

theorem subject?_requestFor : (requestFor operation).subject? = none := by
  unfold requestFor
  split <;> rfl

omit [Heap σ] in
theorem subject?_requestFor_of_slot (replay : Replay σ) :
    ∀ block ∈ (requestFor operation).subject?, replay.slots.get operation.slot = some block := by
  rw [subject?_requestFor]
  exact fun _ hblock => nomatch hblock

variable {operation}

theorem isPowerOfTwo_align : Word.isPowerOfTwo operation.align := Word.isPowerOfTwo_shiftLeft _

theorem words_requestFor (hsize : operation.size < 65536) : (requestFor operation).Words := by
  have hword : (65536 : Nat) < Word.bound := by decide
  have halign : operation.align < 65536 := by
    have hexponent : operation.size % 13 < 16 := by omega
    rw [Operation.align, Nat.one_shiftLeft]
    exact Nat.pow_lt_pow_right (n := 16) (by decide) hexponent
  have hcount : operation.count < 65536 := by
    simp only [Operation.count]
    omega
  have helement : operation.element < 65536 := by
    simp only [Operation.element]
    omega
  unfold requestFor
  split
  · exact ⟨Nat.lt_trans hcount hword, Nat.lt_trans helement hword⟩
  · exact ⟨Nat.lt_trans halign hword, Nat.lt_trans hsize hword⟩
  · exact Nat.lt_trans hsize hword

theorem checkObtained_returns {held : Std.TreeMap Nat Nat} {m : Memory} {block : Nat}
    (met : (requestFor operation).Met held m (some block) (Heap.memory client.heap))
    (htotal : client.held[block]? = some (requestFor operation).size) :
    checkObtained client operation block = .ok () := by
  unfold checkObtained
  split
  · rename_i hopcode
    have hrequest : requestFor operation =
        .allocateZeroed operation.count operation.element := by rw [requestFor, hopcode]
    rw [hrequest] at met htotal
    obtain ⟨-, hzero⟩ := met.zeroed rfl rfl
    have shows : Shows client block (operation.count * operation.element) 0 :=
      ⟨⟨_, htotal, Nat.min_le_left _ _⟩,
        fun hi => hzero (Nat.lt_of_lt_of_le hi (Nat.min_le_left _ _))⟩
    exact shows.check
  · rename_i hopcode
    have hrequest : requestFor operation =
        .allocateAligned operation.align operation.size := by rw [requestFor, hopcode]
    rw [hrequest] at met
    exact require_of .assertion (met.aligned rfl isPowerOfTwo_align rfl)
  · rfl

end obtains

theorem replaceSlot_turned (contract : Heap.Contract Fits) (steady : replay.Steady Fits)
    (hsize : operation.size < 65536) :
    ∃ next size, replay.replaceSlot operation = .ok next ∧
      Turned Fits replay operation.slot size size next := by
  obtain ⟨released, hreleased, served⟩ := steady.serve_release contract operation.slot
  have emptied := steady.turned_release served
  obtain ⟨obtained, hobtained, served'⟩ :=
    emptied.steady.serve contract (words_requestFor hsize)
      (subject?_requestFor_of_slot operation _)
  change released.state.serve (requestFor operation) = .ok obtained at hobtained
  rw [replaceSlot, hreleased, ok_bind]
  dsimp only
  rw [hobtained, ok_bind]
  cases hanswer : obtained.answer with
  | none =>
    have hkeeps : Keeps obtained.state operation.slot none 0 := rfl
    have settled := emptied.steady.settle served'.fits served'.spares (by simp) hkeeps
    have turned := emptied.trans (settled.turned served'.spares rfl)
    rw [settle_settle] at turned
    exact ⟨_, 0, rfl, turned⟩
  | some block =>
    have met := served'.met
    rw [hanswer] at met
    have htotal : obtained.state.held[block]? = some (requestFor operation).size := by
      rw [served'.held, Client.getElem?_recordAfter served'.met.silent, if_pos hanswer]
    obtain ⟨filled, hfilled, hheld, spares, settled⟩ :=
      emptied.steady.refill contract served'.fits served'.spares
        (fun other hne => served'.fresh other hne block hanswer) htotal (Nat.min_le_left _ _)
    have hactual : ((some block).bind (filled.held[·]?)).getD 0 = (requestFor operation).size := by
      rw [Option.bind_some, hheld, htotal, Option.getD_some]
    have turned := emptied.trans (settled.turned spares hactual)
    simp only [settle_settle] at hfilled turned
    refine ⟨_, _, ?_, turned⟩
    dsimp only
    rw [checkObtained_returns met htotal, ok_bind, hfilled]

section resizes

variable {reply : Reply (Option Nat) (Client σ)} (contract : Heap.Contract Fits)
  (steady : replay.Steady Fits)
  (hreply : replay.client.serve (.resize (replay.slots.get slot) size) = .ok reply)
  (served : Served Fits replay slot (.resize (replay.slots.get slot) size) reply)

include steady hreply served

theorem resizeSlot_refused (hanswer : reply.answer = none) :
    ∃ next, replay.resizeSlot slot size = .ok next ∧
      Turned Fits replay slot (replay.sizes.get slot) (replay.actual slot) next := by
  refine ⟨{ replay with client := reply.state }, ?_, ?_⟩
  · rw [resizeSlot, (steady.keeps slot).check, ok_bind, hreply, ok_bind, hanswer]
    rfl
  · have hheld : ∀ block : Nat, reply.state.held[block]? = replay.client.held[block]? := by
      intro block
      rw [served.held, Client.getElem?_recordAfter served.met.silent, hanswer]
      cases replay.slots.get slot <;> rfl
    have hstays : ∀ block,
        (Request.resize (replay.slots.get slot) size).ended? reply.answer ≠ some block := by
      intro block
      rw [hanswer]
      cases replay.slots.get slot <;> simp [Request.ended?]
    have hkeeps : Keeps reply.state slot (replay.slots.get slot) (replay.sizes.get slot) := by
      have hbefore := steady.keeps slot
      cases hslot : replay.slots.get slot with
      | none => rwa [hslot] at hbefore
      | some block =>
        rw [hslot] at hbefore
        exact Shows.of_same hbefore (hheld block) fun total htotal =>
          served.met.kept htotal (hstays block)
    rw [← settle_same]
    refine (steady.settle served.fits served.spares ?_ hkeeps).turned served.spares ?_
    · intro other hne block hblock hother
      exact hne (steady.distinct hblock hother)
    · rw [Replay.actual, funext hheld]

omit hreply in
theorem shows_resized {block : Nat} (hanswer : reply.answer = some block) :
    Shows reply.state block (min (replay.sizes.get slot) size) (fillByte slot) := by
  have htotal : reply.state.held[block]? = some size := by
    rw [served.held, Client.getElem?_recordAfter served.met.silent, if_pos hanswer, Request.size]
  refine ⟨⟨size, htotal, by omega⟩, fun {i} hi => ?_⟩
  have hbefore := steady.keeps slot
  cases hslot : replay.slots.get slot with
  | none =>
    rw [hslot] at hbefore
    have hempty : replay.sizes.get slot = 0 := hbefore
    omega
  | some old =>
    rw [hslot] at hbefore
    rcases hbefore with ⟨⟨oldTotal, hold, hroom⟩, hfilled⟩
    have met := served.met
    rw [hslot] at met
    rw [met.resized rfl hanswer hold (by omega)]
    exact hfilled (by omega)

include contract

/-- A resize that is answered leaves the account as it is. The block is filled if it is as
long as is filled, and otherwise the replay writes outside of it. -/
theorem resizeSlot_answered {block : Nat} (hanswer : reply.answer = some block) :
    if size < min (replay.sizes.get slot) window then
      replay.resizeSlot slot size = .error .strayAccess
    else ∃ next, replay.resizeSlot slot size = .ok next ∧
      Turned Fits replay slot (replay.sizes.get slot) size next := by
  have htotal : reply.state.held[block]? = some size := by
    rw [served.held, Client.getElem?_recordAfter served.met.silent, if_pos hanswer, Request.size]
  have hresize : replay.resizeSlot slot size =
      (replay.settle reply.state slot (some block) (replay.sizes.get slot)).refill slot block := by
    rw [resizeSlot, (steady.keeps slot).check, ok_bind, hreply, ok_bind, hanswer]
    dsimp only
    rw [(shows_resized steady served hanswer).check, ok_bind]
  split
  · rename_i hshort
    rw [hresize, refill_short htotal hshort]
  · rename_i hroom
    obtain ⟨filled, hfilled, hheld, spares, settled⟩ :=
      steady.refill contract served.fits served.spares
        (fun other hne => served.fresh other hne block hanswer) htotal (Nat.le_of_not_lt hroom)
    have hactual : ((some block).bind (filled.held[·]?)).getD 0 = size := by
      rw [Option.bind_some, hheld, htotal, Option.getD_some]
    exact ⟨_, hresize.trans hfilled, settled.turned spares hactual⟩

end resizes

def Resizes (replay : Replay σ) (operation : Operation) : Prop :=
  operation.opcode = .resize ∧ ∃ reply, replay.client.serve
    (.resize (replay.slots.get operation.slot) operation.size) = .ok reply ∧ reply.answer.isSome

/-- The operation gives a block a size that is not the one on account. -/
def Drifts (replay : Replay σ) (operation : Operation) : Prop :=
  replay.Resizes operation ∧ operation.size ≠ replay.sizes.get operation.slot

/-- The operation gives a block a size shorter than what is filled. -/
def Overruns (replay : Replay σ) (operation : Operation) : Prop :=
  replay.Resizes operation ∧ operation.size < min (replay.sizes.get operation.slot) window

theorem Overruns.drifts (h : replay.Overruns operation) : replay.Drifts operation := by
  refine ⟨h.1, fun hsame => ?_⟩
  have hshort := h.2
  omega

/-- A step fails exactly if it overruns, and otherwise an exact account stays so exactly
if the operation does not drift. -/
def Ends (Fits : σ → Std.TreeMap Nat Nat → Prop) (replay : Replay σ) (operation : Operation) :
    Prop :=
  (replay.Overruns operation ∧ replay.step operation = .error .strayAccess) ∨
    ¬replay.Overruns operation ∧ ∃ next, replay.step operation = .ok next ∧ next.Steady Fits ∧
      (replay.Exact → (next.Exact ↔ ¬replay.Drifts operation))

theorem ends_of_turned (hopcode : operation.opcode ≠ .resize)
    (hstep : replay.step operation = .ok next)
    (turned : Turned Fits replay operation.slot size size next) : replay.Ends Fits operation := by
  refine .inr ⟨fun h => hopcode h.1.1, next, hstep, turned.steady, fun exact => ?_⟩
  exact iff_of_true ((turned.exact_iff exact).mpr rfl) fun h => hopcode h.1.1

theorem ends_of_resize (contract : Heap.Contract Fits) (steady : replay.Steady Fits)
    (hsize : operation.size < 65536) (hopcode : operation.opcode = .resize) :
    replay.Ends Fits operation := by
  have hwords : (Request.resize (replay.slots.get operation.slot) operation.size).Words :=
    Nat.lt_trans hsize (by decide)
  obtain ⟨reply, hreply, served⟩ := steady.serve contract hwords fun _ h => h
  have hstep : replay.step operation = replay.resizeSlot operation.slot operation.size := by
    rw [step, hopcode]
  have hresizes : replay.Resizes operation ↔ reply.answer.isSome := by
    constructor
    · intro ⟨_, same, hsame, hsome⟩
      obtain rfl : reply = same := Except.ok.inj (hreply.symm.trans hsame)
      exact hsome
    · intro hsome
      exact ⟨hopcode, reply, hreply, hsome⟩
  rw [Ends, hstep, Overruns, Drifts, hresizes]
  cases hanswer : reply.answer with
  | none =>
    obtain ⟨next, hnext, turned⟩ := resizeSlot_refused steady hreply served hanswer
    refine .inr ⟨by simp, next, hnext, turned.steady, fun exact => ?_⟩
    exact iff_of_true ((turned.exact_iff exact).mpr (exact _)) (by simp)
  | some block =>
    have hspec := resizeSlot_answered contract steady hreply served hanswer
    by_cases hshort : operation.size < min (replay.sizes.get operation.slot) window
    · rw [if_pos hshort] at hspec
      exact .inl ⟨⟨rfl, hshort⟩, hspec⟩
    · rw [if_neg hshort] at hspec
      obtain ⟨next, hnext, turned⟩ := hspec
      refine .inr ⟨fun h => hshort h.2, next, hnext, turned.steady, fun exact => ?_⟩
      rw [turned.exact_iff exact, Option.isSome_some]
      simp [eq_comm]

theorem step_ends (contract : Heap.Contract Fits) (steady : replay.Steady Fits)
    (hsize : operation.size < 65536) : replay.Ends Fits operation := by
  cases hopcode : operation.opcode with
  | release =>
    obtain ⟨next, hnext, turned⟩ := releaseSlot_turned contract steady operation.slot
    exact ends_of_turned (by simp [hopcode]) (by rw [step, hopcode]; exact hnext) turned
  | resize => exact ends_of_resize contract steady hsize hopcode
  | allocate | allocateZeroed | allocateAligned =>
    obtain ⟨next, size, hnext, turned⟩ := replaceSlot_turned contract steady hsize
    exact ends_of_turned (by simp [hopcode]) (by rw [step, hopcode]; exact hnext) turned

theorem sweepSlot_stocked (contract : Heap.Contract Fits) (stocked : replay.Stocked Fits)
    (slot : Fin 64) : ∃ next, replay.sweepSlot slot = .ok next ∧ next.Stocked Fits := by
  obtain ⟨reply, hreply, served⟩ := stocked.serve_release contract slot
  refine ⟨replay.settle reply.state slot none (replay.sizes.get slot), ?_,
    stocked.settle served.fits served.spares (by simp) (by simp) _⟩
  rw [sweepSlot, hreply, ok_bind, pure_eq_ok, settle, Record.set_get]

theorem sweep_returns (contract : Heap.Contract Fits) (stocked : replay.Stocked Fits) :
    ∃ final, replay.sweep = .ok final := by
  unfold sweep
  generalize List.finRange 64 = slots
  induction slots generalizing replay with
  | nil => exact ⟨replay, rfl⟩
  | cons slot rest ih =>
    obtain ⟨next, hnext, stockedNext⟩ := sweepSlot_stocked contract stocked slot
    obtain ⟨final, hfinal⟩ := ih stockedNext
    exact ⟨final, by rw [List.foldlM_cons, hnext, ok_bind, hfinal]⟩

def start (heap : σ) : Replay σ := { client := { heap := heap } }

omit [Heap σ] in
theorem slots_start (slot : Fin 64) : (start heap).slots.get slot = none :=
  Record.get_replicate none

omit [Heap σ] in
theorem sizes_start (slot : Fin 64) : (start heap).sizes.get slot = 0 := Record.get_replicate 0

def after (heap : σ) (operations : List Operation) : Checked (Replay σ) :=
  operations.foldlM step (start heap)

theorem after_snoc (heap : σ) (operations : List Operation) (operation : Operation) :
    after heap (operations ++ [operation]) = (do
      let head ← after heap operations
      head.step operation) := by
  rw [after, List.foldlM_append]
  refine congrArg _ (funext fun head => ?_)
  simp only [List.foldlM_cons, List.foldlM_nil, bind_pure]

/-- Somewhere in a replay of the operations the next one does what `event` says. -/
def Happens (heap : σ) (operations : List Operation) (event : Replay σ → Operation → Prop) :
    Prop :=
  ∃ before operation head, before ++ [operation] <+: operations ∧
    after heap before = .ok head ∧ event head operation

theorem Happens.mono {event other : Replay σ → Operation → Prop}
    (h : Happens heap operations event)
    (himp : ∀ head operation, event head operation → other head operation) :
    Happens heap operations other := by
  rcases h with ⟨before, operation, head, hprefix, hhead, hevent⟩
  exact ⟨before, operation, head, hprefix, hhead, himp head operation hevent⟩

theorem happens_snoc {event : Replay σ → Operation → Prop} :
    Happens heap (operations ++ [operation]) event ↔ Happens heap operations event ∨
      ∃ head, after heap operations = .ok head ∧ event head operation := by
  constructor
  · intro ⟨before, last, head, hprefix, hhead, hevent⟩
    rcases List.prefix_concat_iff.mp hprefix with heq | hprefix
    · obtain ⟨rfl, hlast⟩ := List.append_inj' heq rfl
      obtain rfl := List.singleton_inj.mp hlast
      exact .inr ⟨head, hhead, hevent⟩
    · exact .inl ⟨before, last, head, hprefix, hhead, hevent⟩
  · intro hcase
    rcases hcase with ⟨before, last, head, hprefix, hhead, hevent⟩ | ⟨head, hhead, hevent⟩
    · exact ⟨before, last, head, hprefix.trans (List.prefix_append ..), hhead, hevent⟩
    · exact ⟨operations, operation, head, List.prefix_refl _, hhead, hevent⟩

theorem steady_start (hfits : Fits heap ∅) : (start heap).Steady Fits := by
  refine ⟨⟨hfits, ?_, ?_⟩, ?_⟩
  · intro slot block hblock
    cases (slots_start slot).symm.trans hblock
  · intro a b block ha
    cases (slots_start a).symm.trans ha
  · intro slot
    rw [slots_start]
    exact sizes_start slot

omit [Heap σ] in
theorem exact_start : (start heap).Exact := by
  intro slot
  rw [sizes_start, actual, slots_start]
  rfl

section runs

variable (contract : Heap.Contract Fits) (hfits : Fits heap ∅)
  (hsizes : ∀ operation ∈ operations, operation.size < 65536)

include contract hfits hsizes

/-- A replay fails exactly if it overruns somewhere. -/
theorem after_spec :
    (Happens heap operations Overruns ∧ after heap operations = .error .strayAccess) ∨
      ¬Happens heap operations Overruns ∧
        ∃ head, after heap operations = .ok head ∧ head.Steady Fits := by
  induction operations using List.reverseRecOn with
  | nil =>
    refine .inr ⟨?_, _, rfl, steady_start hfits⟩
    intro ⟨before, operation, _, hprefix, _⟩
    simp at hprefix
  | append_singleton operations operation ih =>
    have hlast := hsizes operation (by simp)
    rw [happens_snoc, after_snoc]
    rcases ih fun other hmem => hsizes other (List.mem_append_left _ hmem) with
      ⟨hhappens, herror⟩ | ⟨hnever, head, hhead, steady⟩
    · exact .inl ⟨.inl hhappens, by rw [herror]; rfl⟩
    · rw [hhead, ok_bind]
      rcases step_ends contract steady hlast with
        ⟨hoverruns, herror⟩ | ⟨hfine, next, hnext, hsteady, -⟩
      · exact .inl ⟨.inr ⟨head, rfl, hoverruns⟩, herror⟩
      · refine .inr ⟨?_, next, hnext, hsteady⟩
        intro hcase
        rcases hcase with hhappens | ⟨_, ⟨⟩, hoverruns⟩
        · exact hnever hhappens
        · exact hfine hoverruns

theorem steady_after (hhead : after heap operations = .ok head) : head.Steady Fits := by
  rcases after_spec contract hfits hsizes with ⟨-, herror⟩ | ⟨-, same, hsame, steady⟩
  · cases herror.symm.trans hhead
  · obtain rfl := Except.ok.inj (hsame.symm.trans hhead)
    exact steady

/-- The account is exact all along if and only if no operation drifts. -/
theorem exact_iff :
    (∀ before, before <+: operations → ∃ head, after heap before = .ok head ∧ head.Exact) ↔
      ¬Happens heap operations Drifts := by
  induction operations using List.reverseRecOn with
  | nil =>
    refine iff_of_true ?_ ?_
    · intro before hbefore
      obtain rfl := List.prefix_nil.mp hbefore
      exact ⟨_, rfl, exact_start⟩
    · intro ⟨before, operation, _, hprefix, _⟩
      simp at hprefix
  | append_singleton operations operation ih =>
    have hsizesBefore : ∀ other ∈ operations, other.size < 65536 := fun other hmem =>
      hsizes other (List.mem_append_left _ hmem)
    have hlast := hsizes operation (by simp)
    simp only [List.prefix_concat_iff, forall_eq_or_imp, ih hsizesBefore, happens_snoc, not_or,
      and_comm (b := ¬Happens heap operations Drifts)]
    apply and_congr_right
    intro hnever
    obtain ⟨head, hhead, hexact⟩ := (ih hsizesBefore).mpr hnever operations (List.prefix_refl _)
    have steady := steady_after contract hfits hsizesBefore hhead
    rw [after_snoc, hhead, ok_bind]
    simp only [Except.ok.injEq, exists_eq_left']
    rcases step_ends contract steady hlast with ⟨hoverruns, herror⟩ | ⟨-, next, hnext, -, hiff⟩
    · simp [herror, hoverruns.drifts]
    · simp [hnext, hiff hexact]

end runs

/-- At the head of every operation the account is exact, and the replay ends: neither does
it touch a byte outside of a block, nor does an assertion fail. -/
def Faithful (heap : σ) (data : List UInt8) : Prop :=
  (∀ before, before <+: Operation.decode data →
    ∃ head, after heap before = .ok head ∧ head.Exact) ∧
  ∃ final, run data heap = .ok final

theorem run_eq (heap : σ) (data : List UInt8) :
    run data heap = (after heap (Operation.decode data) >>= sweep) := rfl

/-- Over every heap that keeps its contract, a replay is faithful unless it gives a block a
size that is not the one on account, which it never corrects. What then goes wrong is that
a block shorter than its account is filled beyond its end, and nothing else. -/
theorem faithful_iff (contract : Heap.Contract Fits) (hfits : Fits heap ∅) (data : List UInt8) :
    (Faithful heap data ↔ ¬Happens heap (Operation.decode data) Drifts) ∧
      ∀ fault, run data heap = .error fault ↔
        fault = .strayAccess ∧ Happens heap (Operation.decode data) Overruns := by
  have hsizes : ∀ operation ∈ Operation.decode data, operation.size < 65536 := fun _ =>
    Operation.size_lt_of_mem_decode
  have hexact := exact_iff contract hfits hsizes
  rcases after_spec contract hfits hsizes with
    ⟨hhappens, herror⟩ | ⟨hnever, head, hhead, steady⟩
  · have hrun : run data heap = .error .strayAccess := by
      rw [run_eq, herror]
      rfl
    refine ⟨?_, fun fault => ?_⟩
    · refine iff_of_false ?_ fun hdrifts => hdrifts (hhappens.mono fun _ _ => Overruns.drifts)
      intro ⟨_, final, hfinal⟩
      cases hrun.symm.trans hfinal
    · rw [hrun]
      simp [hhappens, eq_comm]
  · obtain ⟨final, hfinal⟩ := sweep_returns contract steady.toStocked
    have hrun : run data heap = .ok final := by
      rw [run_eq, hhead, ok_bind, hfinal]
    refine ⟨?_, fun fault => ?_⟩
    · rw [Faithful, hexact]
      exact and_iff_left ⟨final, hrun⟩
    · rw [hrun]
      simp [hnever]

/-- A block of twelve bytes that becomes one of ten is filled beyond its end. -/
theorem faithful_iff_onBreak :
    run [0, 12, 0, 0, 2, 10, 0, 0] onBreak = .error .strayAccess ∧
      Happens onBreak (Operation.decode [0, 12, 0, 0, 2, 10, 0, 0]) Overruns := by
  have hfault := (faithful_iff (meets_contract TopSpace.meets_contract Break.reliable)
    (onBreak_fresh.fits TopSpace.meets_contract) [0, 12, 0, 0, 2, 10, 0, 0]).2
  have hcomputed : (run [0, 12, 0, 0, 2, 10, 0, 0] onBreak).toOption.isNone := by
    decide +kernel
  cases hrun : run [0, 12, 0, 0, 2, 10, 0, 0] onBreak with
  | ok final =>
    rw [hrun] at hcomputed
    cases hcomputed
  | error fault =>
    obtain ⟨rfl, hhappens⟩ := (hfault fault).mp hrun
    exact ⟨rfl, hhappens⟩

/-- A heap may keep its contract and the account still be wrong: of a block of ten bytes
that becomes one of a hundred it says ten. -/
theorem not_faithful_onBreak :
    Heap.Contract (Framed.Fits (TopSpace.Sound Break) Break.Paged) ∧
      Framed.Fits (TopSpace.Sound Break) Break.Paged onBreak ∅ ∧
      ¬Faithful onBreak [0, 10, 0, 0, 2, 100, 0, 0, 1, 0, 0, 0] := by
  refine ⟨meets_contract TopSpace.meets_contract Break.reliable,
    onBreak_fresh.fits TopSpace.meets_contract, ?_⟩
  intro ⟨hheads, _⟩
  obtain ⟨head, hhead, exact⟩ := hheads [⟨.allocate, 10, 0⟩, ⟨.resize, 100, 0⟩] (by decide)
  have hcomputed : ((after onBreak [⟨.allocate, 10, 0⟩, ⟨.resize, 100, 0⟩]).toOption.map
      fun head => (head.sizes.get 0, head.actual 0)) = some (10, 100) := by decide +kernel
  rw [hhead] at hcomputed
  obtain ⟨hsize, hactual⟩ := Prod.mk.inj (Option.some.inj hcomputed)
  have hsame := exact 0
  omega

end Replay

end RegionHeap
