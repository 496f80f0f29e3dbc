import Mathlib.Logic.Function.Basic
import RegionHeap.Proofs.Heap
import RegionHeap.Proofs.Memory

/-!
# What a client sees of its heap

To its client a heap is a finite map from the addresses of the held blocks to
their bytes. The steps below say how each deed may change such a map. They
mention neither headers nor alignments nor where the heap has its bytes from:
a new block enters with its size, a resized one keeps the bytes that both sizes
have room for, a released one leaves, and nothing happens to any other entry.
Every heap that keeps its contract goes through these steps only.
-/
namespace RegionHeap

/-- The bytes of each block that there is. -/
abbrev Contents := Nat → Option (List UInt8)

namespace Contents

/-- The bytes with a range of them replaced by what `f` says of their offsets. -/
def overwrite (bytes : List UInt8) (offset len : Nat) (f : Nat → UInt8) : List UInt8 :=
  bytes.mapIdx fun i byte => if offset ≤ i ∧ i < offset + len then f i else byte

def without (contents : Contents) : Option Nat → Contents
  | none => contents
  | some block => Function.update contents block none

/-- What a deed may do to the contents. -/
inductive Step : Deed → Contents → Contents → Prop
  /-- A request that can be refused was refused. -/
  | refused {contents : Contents} {request : Request} :
      request.releases = false → Step (.served request none) contents contents
  /-- A new block has the requested size, and zeroed elements are zero. -/
  | obtained {contents : Contents} {request : Request} {block : Nat} {bytes : List UInt8} :
      request.subject? = none → request.releases = false → contents block = none →
      bytes.length = request.size →
      (request.zeroes → request.size < Word.bound ∧ bytes = List.replicate request.size 0) →
      Step (.served request (some block)) contents (Function.update contents block (some bytes))
  /-- A resized block may have another address and keeps its first bytes. -/
  | resized {contents : Contents} {old size block : Nat} {before after : List UInt8} :
      contents old = some before → (block = old ∨ contents block = none) →
      after.length = size →
      after.take (min before.length size) = before.take (min before.length size) →
      Step (.served (.resize (some old) size) (some block)) contents
        (Function.update (contents.without old) block (some after))
  | released {contents : Contents} {block : Nat} {bytes : List UInt8} :
      contents block = some bytes →
      Step (.served (.release (some block)) none) contents (contents.without block)
  | releasedNothing {contents : Contents} : Step (.served (.release none) none) contents contents
  | wrote {contents : Contents} {block offset len : Nat} {f : Nat → UInt8} {bytes : List UInt8} :
      contents block = some bytes → offset + len ≤ bytes.length →
      Step (.wrote block offset len f) contents
        (Function.update contents block
          (some (overwrite bytes offset len fun i => f (block + i))))
  | wroteNothing {contents : Contents} {block offset : Nat} {f : Nat → UInt8} :
      Step (.wrote block offset 0 f) contents contents

/-- The contents that a sequence of deeds may lead to from nothing. -/
inductive Run : List Deed → Contents → Prop
  | start : Run [] fun _ => none
  | step {deeds : List Deed} {deed : Deed} {contents next : Contents} :
      Run deeds contents → Step deed contents next → Run (deeds ++ [deed]) next

theorem Step.eq_of_refused {request : Request} {contents next : Contents}
    (h : Step (.served request none) contents next) (hkeeps : request.releases = false) :
    next = contents := by
  cases h with
  | refused => rfl
  | released => cases hkeeps
  | releasedNothing => rfl

theorem Step.of_new {request : Request} {block : Nat} {contents next : Contents}
    (h : Step (.served request (some block)) contents next) (hnew : request.subject? = none) :
    contents block = none ∧ ∃ bytes : List UInt8, bytes.length = request.size ∧
      (request.zeroes → bytes = List.replicate request.size 0) ∧
      next = Function.update contents block (some bytes) := by
  cases h with
  | obtained _ _ hfree hlength hzeroed =>
    exact ⟨hfree, _, hlength, fun hzeroes => (hzeroed hzeroes).2, rfl⟩
  | resized => cases hnew

theorem Step.of_resize {old size block : Nat} {contents next : Contents}
    (h : Step (.served (.resize (some old) size) (some block)) contents next) :
    ∃ before after : List UInt8, contents old = some before ∧
      (block = old ∨ contents block = none) ∧ after.length = size ∧
      after.take (min before.length size) = before.take (min before.length size) ∧
      next = Function.update (contents.without old) block (some after) := by
  cases h with
  | obtained hnew => cases hnew
  | resized hold hblock hlength hkept => exact ⟨_, _, hold, hblock, hlength, hkept, rfl⟩

theorem Step.of_release {gone : Option Nat} {contents next : Contents}
    (h : Step (.served (.release gone) none) contents next) : next = contents.without gone := by
  cases h with
  | refused hkeeps => cases hkeeps
  | released => rfl
  | releasedNothing => rfl

theorem Step.of_write {block offset len : Nat} {f : Nat → UInt8} {contents next : Contents}
    {bytes : List UInt8} (h : Step (.wrote block offset len f) contents next)
    (hbytes : contents block = some bytes) :
    next = Function.update contents block
      (some (overwrite bytes offset len fun i => f (block + i))) := by
  cases h with
  | wrote hsome => rw [Option.some.inj (hbytes.symm.trans hsome)]
  | wroteNothing =>
    have hsame : overwrite bytes offset 0 (fun i => f (block + i)) = bytes := by
      refine List.ext_getElem (by simp [overwrite]) fun i _ _ => ?_
      simp only [overwrite, List.getElem_mapIdx]
      exact if_neg (by omega)
    rw [hsame, ← hbytes, Function.update_eq_self]

theorem without_apply (contents : Contents) (gone : Option Nat) (block : Nat) :
    contents.without gone block = if gone = some block then none else contents block := by
  cases gone with
  | none => rfl
  | some old => simp [without, Function.update_apply, eq_comm]

theorem overwrite_bytes (m : Memory) (block size offset len : Nat) (f : Nat → UInt8) :
    (m.update (block + offset) len f).bytes block size =
      overwrite (m.bytes block size) offset len fun i => f (block + i) := by
  apply List.ext_getElem
  · simp [overwrite, Memory.length_bytes]
  · intro i _ _
    simp only [overwrite, Memory.bytes, Memory.byte_update, List.getElem_map, List.getElem_range',
      List.getElem_mapIdx, Nat.one_mul]
    split
    · rw [if_pos (by omega)]
    · rw [if_neg (by omega)]

end Contents

namespace Client

variable {σ : Type} [Heap σ] {Fits : σ → Std.TreeMap Nat Nat → Prop} {client next : Client σ}
  {request : Request} {reply : Reply (Option Nat) (Client σ)}

/-- What the client sees: the bytes of the blocks that it holds. -/
def contents (client : Client σ) : Contents := fun block =>
  client.held[block]?.map fun size => (Heap.memory client.heap).bytes block size

theorem contents_eq_some {block size : Nat} (h : client.held[block]? = some size) :
    client.contents block = some ((Heap.memory client.heap).bytes block size) := by
  rw [contents, h, Option.map_some]

theorem contents_eq_none {block : Nat} (h : client.held[block]? = none) :
    client.contents block = none := by
  rw [contents, h, Option.map_none]

theorem of_contents_eq_some {block : Nat} {bytes : List UInt8}
    (h : client.contents block = some bytes) :
    client.held[block]? = some bytes.length ∧
      bytes = (Heap.memory client.heap).bytes block bytes.length := by
  obtain ⟨size, hsize, rfl⟩ := Option.map_eq_some_iff.mp h
  rw [Memory.length_bytes]
  exact ⟨hsize, rfl⟩

section served

variable {answer : Option Nat}
  (met : request.Met client.held (Heap.memory client.heap) answer (Heap.memory next.heap))
  (hheld : next.held = recordAfter client.held request answer)

include met hheld

theorem contents_kept {block : Nat} (hne : answer ≠ some block) :
    next.contents block = client.contents.without (request.ended? answer) block := by
  rw [contents, hheld, getElem?_recordAfter met.silent, if_neg hne, Contents.without_apply]
  split
  · rfl
  · rename_i hstays
    cases hsize : client.held[block]? with
    | none => exact (contents_eq_none hsize).symm
    | some size =>
      rw [contents_eq_some hsize]
      exact congrArg some (Memory.bytes_congr (met.kept hsize hstays))

theorem contents_refused (hnone : answer = none) :
    next.contents = client.contents.without (request.ended? none) := by
  funext block
  rw [contents_kept met hheld (by simp [hnone]), hnone]

theorem contents_answered {block : Nat} (hanswer : answer = some block) :
    next.contents = Function.update (client.contents.without (request.ended? (some block)))
      block (some ((Heap.memory next.heap).bytes block request.size)) := by
  funext other
  rw [Function.update_apply]
  split
  · rename_i heq
    rw [heq]
    exact contents_eq_some (by rw [hheld, getElem?_recordAfter met.silent, if_pos hanswer])
  · rename_i hne
    rw [contents_kept met hheld fun heq => hne (Option.some.inj (heq.symm.trans hanswer)), hanswer]

theorem step_obtain (hnew : request.subject? = none) (hkeeps : request.releases = false)
    {block : Nat} (hanswer : answer = some block) :
    Contents.Step (.served request (some block)) client.contents next.contents := by
  rw [contents_answered met hheld hanswer, Request.ended?_some hkeeps, hnew]
  refine .obtained hnew hkeeps ?_ (Memory.length_bytes ..) fun hzeroes => ?_
  · rcases met.fresh hanswer with hfree | hold
    · exact contents_eq_none hfree
    · cases hnew.symm.trans hold
  · obtain ⟨hword, hzero⟩ := met.zeroed hzeroes hanswer
    exact ⟨hword, Memory.bytes_eq_replicate hzero⟩

/-- An answer that is met is a step of the contents. -/
theorem step_met (hsubject : ∀ block ∈ request.subject?, block ∈ client.held) :
    Contents.Step (.served request answer) client.contents next.contents := by
  cases hanswer : answer with
  | none =>
    rw [contents_refused met hheld hanswer]
    cases request with
    | release block =>
      cases block with
      | none => exact .releasedNothing
      | some block =>
        obtain ⟨size, hsize⟩ := Record.mem_iff.mp (hsubject block rfl)
        exact .released (contents_eq_some hsize)
    | _ => exact .refused rfl
  | some block =>
    cases request with
    | release old => cases (met.silent rfl).symm.trans hanswer
    | resize old size =>
      cases old with
      | none => exact step_obtain met hheld rfl rfl hanswer
      | some old =>
        obtain ⟨oldSize, hold⟩ := Record.mem_iff.mp (hsubject old rfl)
        rw [contents_answered met hheld hanswer]
        refine .resized (contents_eq_some hold) ?_ (Memory.length_bytes ..) ?_
        · rcases met.fresh hanswer with hfree | hsame
          · exact .inr (contents_eq_none hfree)
          · exact .inl (Option.some.inj hsame).symm
        · rw [Request.size, Memory.length_bytes, Memory.take_bytes _ _ _ (Nat.min_le_right _ _),
            Memory.take_bytes _ _ _ (Nat.min_le_left _ _)]
          exact Memory.bytes_congr (met.resized rfl hanswer hold)
    | _ => exact step_obtain met hheld rfl rfl hanswer

end served

theorem step_serve (contract : Heap.Contract Fits) (hfits : Fits client.heap client.held)
    (hwords : request.Words) (h : client.serve request = .ok reply) :
    Contents.Step (.served request reply.answer) client.contents reply.state.contents := by
  obtain ⟨met, -, hheld⟩ := serve_met contract hfits hwords h
  exact step_met met hheld (serve_eq_ok.mp h).1

theorem contents_of_refused (contract : Heap.Contract Fits)
    (hfits : Fits client.heap client.held) (hwords : request.Words)
    (hkeeps : request.releases = false) (h : client.serve request = .ok reply)
    (hanswer : reply.answer = none) : reply.state.contents = client.contents := by
  have hstep := step_serve contract hfits hwords h
  rw [hanswer] at hstep
  exact hstep.eq_of_refused hkeeps

theorem step_update (contract : Heap.Contract Fits) (hfits : Fits client.heap client.held)
    {block offset len : Nat} {f : Nat → UInt8} (h : client.update block offset len f = .ok next) :
    Contents.Step (.wrote block offset len f) client.contents next.contents := by
  obtain ⟨hcovers, -⟩ := update_eq_ok.mp h
  have hbyte := byte_of_update contract h
  have hheld := held_of_update h
  rcases covers_iff.mp hcovers with rfl | ⟨size, hsize, hinside⟩
  · have hsame : next.contents = client.contents := by
      funext other
      rw [contents, hheld, contents]
      refine congrArg (client.held[other]?.map ·) (funext fun size => Memory.bytes_congr ?_)
      intro i _
      exact (hbyte _).trans (if_neg (by omega))
    rw [hsame]
    exact .wroteNothing
  · have hnext : next.contents = Function.update client.contents block (some (Contents.overwrite
        ((Heap.memory client.heap).bytes block size) offset len fun i => f (block + i))) := by
      funext other
      rw [Function.update_apply]
      split
      · rename_i heq
        rw [heq, contents, hheld, hsize, Option.map_some, ← Contents.overwrite_bytes]
        refine congrArg some (Memory.bytes_congr fun {i} _ => ?_)
        rw [hbyte, Memory.byte_update]
      · rename_i hne
        cases hother : client.held[other]? with
        | none => rw [contents_eq_none (hheld ▸ hother), contents_eq_none hother]
        | some otherSize =>
          rw [contents_eq_some (hheld ▸ hother), contents_eq_some hother]
          refine congrArg some (Memory.bytes_congr fun {i} hi => ?_)
          refine (hbyte _).trans (if_neg fun ⟨hstart, hstop⟩ => ?_)
          exact contract.apart hfits hother hsize hne hi (j := other + i - block) (by omega)
            (by omega)
    rw [hnext]
    exact .wrote (contents_eq_some hsize) (by rwa [Memory.length_bytes])

/-- Every run of a client goes through the contents that its deeds allow. -/
theorem Run.contents (contract : Heap.Contract Fits) {start : σ} (hfits : Fits start ∅)
    {deeds : List Deed} (hrun : Run ⟨start, ∅⟩ deeds client) :
    Contents.Run deeds client.contents ∧ Fits client.heap client.held := by
  induction hrun with
  | start => exact ⟨.start, hfits⟩
  | serve _ hwords hserve ih =>
    exact ⟨.step ih.1 (step_serve contract ih.2 hwords hserve),
      (serve_met contract ih.2 hwords hserve).2.1⟩
  | write _ hwrite ih =>
    exact ⟨.step ih.1 (step_update contract ih.2 hwrite), fits_update contract ih.2 hwrite⟩

/-- What was ever obtained for a power of two lies at a multiple of it. -/
theorem Run.aligned (contract : Heap.Contract Fits) {start : σ} (hfits : Fits start ∅)
    {deeds : List Deed} (hrun : Run ⟨start, ∅⟩ deeds client) {block wish : Nat}
    (hdeed : Deed.served request (some block) ∈ deeds) (hwish : request.wish? = some wish)
    (hpower : Word.isPowerOfTwo wish) : block % wish = 0 := by
  induction hrun with
  | start => cases hdeed
  | serve hrun hwords hserve ih =>
    rcases List.mem_append.mp hdeed with hbefore | hlast
    · exact ih hbefore
    · obtain ⟨rfl, hanswer⟩ := Deed.served.inj (List.mem_singleton.mp hlast)
      obtain ⟨met, -⟩ := serve_met contract (hrun.contents contract hfits).2 hwords hserve
      exact met.aligned hwish hpower hanswer.symm
  | write hrun hwrite ih =>
    rcases List.mem_append.mp hdeed with hbefore | hlast
    · exact ih hbefore
    · cases List.mem_singleton.mp hlast

end Client

end RegionHeap
