import RegionHeap.Proofs.Contents
import RegionHeap.Proofs.Framed.Section

/-!
# A framed heap that threads share

A call is made in steps: the header of its block is read, the allocator is used,
the header of the new block is written, and the answer is given. Only the second
step holds the lock; between any two of them other threads may take steps of
theirs. Every address that was handed out is owned by one thread, which alone
makes calls about it and writes into its block, and may hand it over when it is
in no call. Who owns what, what was written below an address and what has been
done are kept here for the sake of what can be said; the heap knows none of it.
-/
namespace RegionHeap.Framed

open Growth (Provider)
open Sized (Allocator)

/-- What a thread is about: nothing, or a call that has come so far. -/
inductive Activity where
  | idle
  | calling (request : Request) (call : Call)
deriving Repr, DecidableEq

namespace Activity

/-- The user address whose header is still to be written. -/
def framed? : Activity → Option Nat
  | idle => none
  | calling _ call => call.framed?

/-- The header that is still to be written has this address. -/
def Frames (activity : Activity) (address : Nat) : Prop :=
  ∃ user ∈ activity.framed?, user - Header.width ≤ address ∧ address < user

/-- What the thread has done and has not been told yet. -/
def owed : Activity → List Deed
  | idle => []
  | calling request call =>
    match call with
    | .requested _ | .entering _ => []
    | .framing _ _ | .answered _ => [.served request call.due]

end Activity

structure Shared (α ρ : Type) (n : Nat) where
  /-- The heap, and the sizes of all blocks that anyone holds. -/
  client : Client (Framed α ρ)
  owners : Std.TreeMap Nat (Fin n) := ∅
  activities : Vector Activity n := Vector.replicate n .idle
  /-- The header that was last written below each address. -/
  written : Register := ∅
  /-- What was done by whom, calls in the order in which they held the lock. -/
  log : List (Fin n × Deed) := []
  /-- What each thread has written, and the answers that it has got. -/
  told : Vector (List Deed) n := Vector.replicate n []

inductive Move (n : Nat) where
  | start (thread : Fin n) (request : Request)
  /-- The thread takes the next step of its call. -/
  | advance (thread : Fin n)
  | write (thread : Fin n) (user offset len : Nat) (f : Nat → UInt8)
  | handOver (thread : Fin n) (user : Nat) (receiver : Fin n)

def Move.thread {n : Nat} : Move n → Fin n
  | start thread _ => thread
  | advance thread => thread
  | write thread _ _ _ _ => thread
  | handOver thread _ _ => thread

namespace Shared

variable {α ρ : Type} [Allocator α] [Provider ρ] {n : Nat}

/-- Threads that have not done anything yet. -/
def initial (start : Framed α ρ) (n : Nat) : Shared α ρ n := { client := ⟨start, ∅⟩ }

/-- All that was done, in order. -/
def deeds (s : Shared α ρ n) : List Deed := s.log.map Prod.snd

/-- What one thread has done. -/
def deedsOf (s : Shared α ρ n) (thread : Fin n) : List Deed :=
  (s.log.filter (·.1 = thread)).map Prod.snd

/-- The headers that the blocks ought to have after what was done. -/
def register (s : Shared α ρ n) : Register := .ofDeeds s.deeds

def Owns (s : Shared α ρ n) (thread : Fin n) (user : Nat) : Prop := s.owners[user]? = some thread

instance (s : Shared α ρ n) (thread : Fin n) (user : Nat) : Decidable (s.Owns thread user) :=
  inferInstanceAs (Decidable (_ = _))

def withHeap (s : Shared α ρ n) (heap : Framed α ρ) : Shared α ρ n :=
  { s with client := { s.client with heap := heap } }

def doing (s : Shared α ρ n) (thread : Fin n) (activity : Activity) : Shared α ρ n :=
  { s with activities := s.activities.set thread activity thread.isLt }

/-- Who owns what after a call of the thread was answered. -/
def ownersAfter (owners : Std.TreeMap Nat (Fin n)) (thread : Fin n) (request : Request)
    (answer : Option Nat) : Std.TreeMap Nat (Fin n) :=
  let rest := match request.ended? answer with
    | none => owners
    | some user => owners.erase user
  match answer with
  | none => rest
  | some user => rest.insert user thread

/-- From now on it is certain what the call of the thread is answered with. -/
def decide (s : Shared α ρ n) (thread : Fin n) (request : Request)
    (reply : Reply Call (Framed α ρ)) : Shared α ρ n :=
  { s.doing thread (.calling request reply.answer) with
    client := ⟨reply.state, Client.recordAfter s.client.held request reply.answer.due⟩
    owners := ownersAfter s.owners thread request reply.answer.due
    log := s.log ++ [(thread, .served request reply.answer.due)] }

def tell (s : Shared α ρ n) (thread : Fin n) (deed : Deed) : Shared α ρ n :=
  { s with told := s.told.set thread (s.told.get thread ++ [deed]) thread.isLt }

/-- The thread has written into a block. -/
def overwrite (s : Shared α ρ n) (thread : Fin n) (client : Client (Framed α ρ)) (deed : Deed) :
    Shared α ρ n :=
  { s.tell thread deed with client := client, log := s.log ++ [(thread, deed)] }

/-- The next step of a call. -/
def advance (s : Shared α ρ n) (thread : Fin n) (request : Request) (call : Call) :
    Checked (Shared α ρ n) := do
  let reply ← s.client.heap.step call
  let next := (s.withHeap reply.state).doing thread (.calling request reply.answer)
  match call with
  | .requested _ | .entering _ =>
    match reply.answer with
    | .requested _ | .entering _ => return next
    | .framing _ _ | .answered _ => return s.decide thread request reply
  | .framing user header => return { next with written := s.written.insert user header }
  | .answered result => return (s.doing thread .idle).tell thread (.served request result)

/-- Users keep to what they own: they make calls about it and write into it, one at a time. -/
def Allows (s : Shared α ρ n) : Move n → Prop
  | .start thread request => s.activities.get thread = .idle ∧ request.Words ∧
      ∀ user ∈ request.subject?, s.Owns thread user
  | .advance thread => s.activities.get thread ≠ .idle
  | .write thread user offset len _ => s.activities.get thread = .idle ∧ s.Owns thread user ∧
      s.client.covers user offset len
  | .handOver thread user _ => s.activities.get thread = .idle ∧ s.Owns thread user

instance (s : Shared α ρ n) (move : Move n) : Decidable (s.Allows move) :=
  match move with
  | .start _ _ => inferInstanceAs (Decidable (_ ∧ _))
  | .advance _ => inferInstanceAs (Decidable (_ ≠ _))
  | .write _ _ _ _ _ => inferInstanceAs (Decidable (_ ∧ _))
  | .handOver _ _ _ => inferInstanceAs (Decidable (_ ∧ _))

def perform (s : Shared α ρ n) : Move n → Checked (Shared α ρ n)
  | .start thread request => return s.doing thread (.calling request (.requested request))
  | .advance thread =>
    match s.activities.get thread with
    | .idle => return s
    | .calling request call => s.advance thread request call
  | .write thread user offset len f => do
    let client ← s.client.update user offset len f
    return s.overwrite thread client (.wrote user offset len f)
  | .handOver _ user receiver => return { s with owners := s.owners.insert user receiver }

inductive Reaches (start : Shared α ρ n) : Shared α ρ n → Prop
  | start : Reaches start start
  | step {s next : Shared α ρ n} {move : Move n} :
      Reaches start s → s.Allows move → s.perform move = .ok next → Reaches start next

end Shared

end RegionHeap.Framed
