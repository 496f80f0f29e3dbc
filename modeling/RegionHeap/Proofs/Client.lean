import RegionHeap.Client
import RegionHeap.Proofs.Checked
import RegionHeap.Proofs.Record
import RegionHeap.Word

/-!
# Runs of a client

A run is any finite sequence of deeds of a client: requests about nothing or
about a block that it holds, and writes into blocks that it holds. Each deed is
recorded with its answer, so that what a run has led to can be computed from
its record. Requests are made in words; nothing else is asked of them.
-/
namespace RegionHeap

open Checked

/-- Every number in the request is a word. -/
def Request.Words : Request → Prop
  | allocate size => size < Word.bound
  | allocateAligned align size => align < Word.bound ∧ size < Word.bound
  | allocateZeroed count size => count < Word.bound ∧ size < Word.bound
  | allocateZeroedAligned align count size =>
    align < Word.bound ∧ count < Word.bound ∧ size < Word.bound
  | resize _ size => size < Word.bound
  | release _ => True

instance (request : Request) : Decidable request.Words :=
  match request with
  | .allocate _ | .resize _ _ => inferInstanceAs (Decidable (_ < _))
  | .allocateAligned _ _ | .allocateZeroed _ _ => inferInstanceAs (Decidable (_ ∧ _))
  | .allocateZeroedAligned _ _ _ => inferInstanceAs (Decidable (_ ∧ _ ∧ _))
  | .release _ => inferInstanceAs (Decidable True)

/-- The block whose life under its address the answer to the request ends. -/
def Request.ended? : Request → Option Nat → Option Nat
  | release block, _ => block
  | resize old _, some _ => old
  | _, _ => none

def Request.zeroes : Request → Bool
  | allocateZeroed .. => true
  | allocateZeroedAligned .. => true
  | _ => false

def Request.releases : Request → Bool
  | release _ => true
  | _ => false

theorem Request.ended?_some {request : Request} (h : request.releases = false) (block : Nat) :
    request.ended? (some block) = request.subject? := by
  cases request with
  | release old => cases h
  | _ => rfl

theorem Request.ended?_none {request : Request} (h : request.releases = false) :
    request.ended? none = none := by
  cases request with
  | release old => cases h
  | _ => rfl

theorem Request.subject?_of_ended? {request : Request} {answer : Option Nat} {block : Nat}
    (h : request.ended? answer = some block) : request.subject? = some block := by
  cases request with
  | release old => exact h
  | resize old size =>
    cases answer with
    | none => cases h
    | some new => exact h
  | _ => cases h

theorem Request.new_or_resize {request : Request} (h : request.releases = false) :
    request.subject? = none ∨ ∃ block size, request = .resize (some block) size := by
  cases request with
  | resize block size =>
    cases block with
    | none => exact .inl rfl
    | some block => exact .inr ⟨block, size, rfl⟩
  | release block => cases h
  | _ => exact .inl rfl

/-- What a client has done: a request that was answered, or a write. -/
inductive Deed where
  | served (request : Request) (answer : Option Nat)
  | wrote (block offset len : Nat) (f : Nat → UInt8)

namespace Client
variable {σ : Type} [Heap σ] {client : Client σ} {request : Request}
  {reply : Reply (Option Nat) (Client σ)}

/-- Every client that a first one can become, with the deeds that lead there. -/
inductive Run (first : Client σ) : List Deed → Client σ → Prop
  | start : Run first [] first
  | serve {deeds : List Deed} {client : Client σ} {request : Request}
      {reply : Reply (Option Nat) (Client σ)} :
      Run first deeds client → request.Words → client.serve request = .ok reply →
      Run first (deeds ++ [.served request reply.answer]) reply.state
  | write {deeds : List Deed} {client next : Client σ} {block offset len : Nat}
      {f : Nat → UInt8} :
      Run first deeds client → client.update block offset len f = .ok next →
      Run first (deeds ++ [.wrote block offset len f]) next

omit [Heap σ] in
theorem getElem?_recordAfter {held : Std.TreeMap Nat Nat} {answer : Option Nat}
    (hsilent : request.releases → answer = none) (block : Nat) :
    (recordAfter held request answer)[block]? =
      if answer = some block then some request.size
      else if request.ended? answer = some block then none else held[block]? := by
  cases request with
  | release old =>
    obtain rfl := hsilent rfl
    cases old with
    | none => rfl
    | some old =>
      rw [recordAfter, Record.getElem?_erase]
      simp [Request.ended?]
  | resize old size =>
    cases answer with
    | none => cases old <;> rfl
    | some new =>
      cases old with
      | none => simp [recordAfter, Record.getElem?_insert, Request.ended?]
      | some old =>
        simp [recordAfter, Record.getElem?_insert, Record.getElem?_erase, Request.ended?,
          Request.size]
  | _ =>
    cases answer with
    | none => rfl
    | some new => simp [recordAfter, Record.getElem?_insert, Request.ended?]

omit [Heap σ] in
/-- What is held after an answer: the answer, and all whose life it did not end. -/
theorem mem_recordAfter {held : Std.TreeMap Nat Nat} {answer : Option Nat}
    (hsilent : request.releases → answer = none) {block : Nat} :
    block ∈ recordAfter held request answer ↔
      answer = some block ∨ request.ended? answer ≠ some block ∧ block ∈ held := by
  rw [Record.mem_iff, getElem?_recordAfter hsilent]
  by_cases hanswer : answer = some block
  · simp [hanswer]
  · by_cases hended : request.ended? answer = some block
    · simp [hanswer, hended]
    · simp [hanswer, hended, Record.mem_iff]

/-- A request was served: it was about a held block, if about any, and the heap answered. -/
theorem serve_eq_ok :
    client.serve request = .ok reply ↔
      (∀ block ∈ request.subject?, block ∈ client.held) ∧
      ∃ inner, Heap.serve request client.heap = .ok inner ∧
        reply = ⟨inner.answer,
          ⟨inner.state, recordAfter client.held request inner.answer⟩, inner.events⟩ := by
  constructor
  · intro h
    obtain ⟨_, hheld, h⟩ := bind_eq_ok.mp h
    obtain ⟨inner, hinner, h⟩ := bind_eq_ok.mp h
    exact ⟨require_eq_ok.mp hheld, inner, hinner, (Except.ok.inj h).symm⟩
  · intro hparts
    rcases hparts with ⟨hheld, inner, hinner, rfl⟩
    have hcontains : ∀ block ∈ request.subject?, client.held.contains block :=
      fun block hblock => Std.TreeMap.mem_iff_contains.mp (hheld block hblock)
    rw [serve, require_of .deadBlock hcontains, ok_bind, hinner, ok_bind, pure_eq_ok]

omit [Heap σ] in
theorem covers_iff {block offset len : Nat} :
    client.covers block offset len ↔
      len = 0 ∨ ∃ size, client.held[block]? = some size ∧ offset + len ≤ size := by
  unfold covers
  rw [Bool.or_eq_true, decide_eq_true_eq]
  split <;> simp_all

theorem update_eq_ok {block offset len : Nat} {f : Nat → UInt8} {next : Client σ} :
    client.update block offset len f = .ok next ↔ client.covers block offset len ∧
      next = client.withMemory ((Heap.memory client.heap).update (block + offset) len f) := by
  constructor
  · intro h
    obtain ⟨_, hcovers, h⟩ := bind_eq_ok.mp h
    exact ⟨require_eq_ok.mp hcovers, (Except.ok.inj h).symm⟩
  · intro hparts
    rcases hparts with ⟨hcovers, rfl⟩
    rw [update, require_of .strayAccess hcovers, ok_bind, pure_eq_ok]

end Client

end RegionHeap
