import Mathlib.Data.Finset.Option
import RegionHeap.Proofs.Heap

/-!
# A ledger of blocks

A heap can be made to write down its transactions. Which blocks are in use then
is a matter of its log alone: a block is handed out, and it is taken back or
moved away. For this no more is asked of a heap than that it answers, with
nothing or with a block that is not in use. A heap that has its answers given in
advance is such a heap, whatever they are.
-/
namespace RegionHeap

open Checked

section heaps

variable {σ : Type} [Heap σ] {Fits : σ → Std.TreeMap Nat Nat → Prop}

/-- What is asked of a heap whose bytes do not matter: no answer is a block in use. -/
structure Heap.Answers (Fits : σ → Std.TreeMap Nat Nat → Prop) : Prop where
  serve : ∀ {heap held} {request : Request}, Fits heap held → request.Words →
    (∀ block ∈ request.subject?, block ∈ held) →
    ∃ reply, Heap.serve request heap = .ok reply ∧
      (∀ block ∈ reply.answer, block ∉ held ∨ request.subject? = some block) ∧
      (request.releases → reply.answer = none) ∧
      Fits reply.state (Client.recordAfter held request reply.answer)
  write : ∀ {heap held m}, Fits heap held →
    (∀ address, (∀ block size, held[block]? = some size →
      ¬(block ≤ address ∧ address < block + size)) → m.byte address = (memory heap).byte address) →
    Fits (withMemory m heap) held

theorem Heap.Contract.answers (contract : Heap.Contract Fits) : Heap.Answers Fits where
  serve := by
    intro heap held request hfits hwords hheld
    obtain ⟨reply, hreply, met, hfitsAfter⟩ := contract.serve hfits hwords hheld
    refine ⟨reply, hreply, fun block hblock => ?_, met.silent, hfitsAfter⟩
    refine (met.fresh hblock).imp_left fun hfree hmem => ?_
    obtain ⟨size, hsize⟩ := Record.mem_iff.mp hmem
    cases hfree.symm.trans hsize
  write := contract.write

structure Transaction where
  request : Request
  answer : Option Nat
deriving Repr, DecidableEq

/-- The live blocks after a transaction. -/
def Transaction.after (live : Finset Nat) (transaction : Transaction) : Finset Nat :=
  live \ (transaction.request.ended? transaction.answer).toFinset ∪ transaction.answer.toFinset

/-- The blocks that were handed out in some transactions and not taken back. -/
def liveAfter (log : List Transaction) : Finset Nat := log.foldl Transaction.after ∅

/-- No transaction resizes or gives back a block that is not live then. -/
def Orderly (log : List Transaction) : Prop :=
  ∀ before transaction, before ++ [transaction] <+: log →
    ∀ block ∈ transaction.request.subject?, block ∈ liveAfter before

theorem Transaction.mem_after {live : Finset Nat} {transaction : Transaction} {block : Nat} :
    block ∈ transaction.after live ↔ transaction.answer = some block ∨
      transaction.request.ended? transaction.answer ≠ some block ∧ block ∈ live := by
  simp only [after, Finset.mem_union, Finset.mem_sdiff, Option.mem_toFinset, Option.mem_def]
  tauto

theorem liveAfter_concat (log : List Transaction) (transaction : Transaction) :
    liveAfter (log ++ [transaction]) = transaction.after (liveAfter log) := by
  rw [liveAfter, List.foldl_append]
  rfl

theorem Orderly.concat {log : List Transaction} {transaction : Transaction} (h : Orderly log)
    (hlive : ∀ block ∈ transaction.request.subject?, block ∈ liveAfter log) :
    Orderly (log ++ [transaction]) := by
  intro before last hfirst
  rcases List.prefix_concat_iff.mp hfirst with heq | hfirst
  · obtain ⟨rfl, hlast⟩ := List.append_inj' heq rfl
    obtain rfl := List.singleton_inj.mp hlast
    exact hlive
  · exact h before last hfirst

/-- A heap that writes down its transactions, the oldest first. -/
structure Logged (σ : Type) where
  heap : σ
  log : List Transaction := []

namespace Logged

instance : Heap (Logged σ) where
  serve request logged := do
    let reply ← Heap.serve request logged.heap
    return ⟨reply.answer, ⟨reply.state, logged.log ++ [⟨request, reply.answer⟩]⟩, reply.events⟩
  memory logged := Heap.memory logged.heap
  withMemory memory logged := { logged with heap := Heap.withMemory memory logged.heap }

structure Keeps (Fits : σ → Std.TreeMap Nat Nat → Prop) (logged : Logged σ)
    (held : Std.TreeMap Nat Nat) : Prop where
  fits : Fits logged.heap held
  live : ∀ block, block ∈ liveAfter logged.log ↔ block ∈ held
  orderly : Orderly logged.log

omit [Heap σ] in
theorem keeps_empty {heap : σ} (h : Fits heap ∅) : Logged.Keeps Fits ⟨heap, []⟩ ∅ where
  fits := h
  live block := by simp [liveAfter]
  orderly before transaction hfirst := by simp at hfirst

theorem answers (answers : Heap.Answers Fits) : Heap.Answers (Logged.Keeps Fits) where
  serve := by
    intro logged held request h hwords hheld
    obtain ⟨reply, hreply, hfresh, hsilent, hfits⟩ := answers.serve h.fits hwords hheld
    refine ⟨_, bind_eq_ok.mpr ⟨reply, hreply, rfl⟩, hfresh, hsilent, hfits, ?_, ?_⟩
    · intro block
      rw [Client.mem_recordAfter hsilent, ← h.live block]
      dsimp only
      rw [liveAfter_concat, Transaction.mem_after]
    · exact h.orderly.concat fun block hblock => (h.live block).mpr (hheld block hblock)
  write h hbytes := ⟨answers.write h.fits hbytes, h.live, h.orderly⟩

end Logged

end heaps

/-- A heap that has been told what to answer; it leaves out what would be a block in use. -/
structure Scripted where
  script : List (Option Nat)
  held : Std.TreeMap Nat Nat
  memory : Memory

namespace Scripted

def following (script : List (Option Nat)) : Scripted := ⟨script, ∅, .empty⟩

def answer (request : Request) (scripted : Scripted) : Option Nat :=
  if request.releases then none
  else scripted.script.head?.join.filter fun block =>
    block ∉ scripted.held ∨ request.subject? = some block

instance : Heap Scripted where
  serve request scripted :=
    let answer := scripted.answer request
    return ⟨answer, { scripted with
      script := if request.releases then scripted.script else scripted.script.tail
      held := Client.recordAfter scripted.held request answer }, []⟩
  memory scripted := scripted.memory
  withMemory memory scripted := { scripted with memory := memory }

def Fits (scripted : Scripted) (held : Std.TreeMap Nat Nat) : Prop := scripted.held = held

theorem fits_following (script : List (Option Nat)) : Fits (following script) ∅ := rfl

theorem answers : Heap.Answers Fits where
  serve := by
    rintro scripted held request rfl - -
    refine ⟨_, rfl, fun block hblock => ?_, fun hreleases => if_pos hreleases, rfl⟩
    change scripted.answer request = some block at hblock
    rw [answer] at hblock
    split at hblock
    · cases hblock
    · exact of_decide_eq_true (Option.filter_eq_some_iff.mp hblock).2
  write h _ := h

end Scripted

end RegionHeap
