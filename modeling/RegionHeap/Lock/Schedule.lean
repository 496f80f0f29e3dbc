import RegionHeap.Lock
import RegionHeap.Word

/-!
# Scheduling a locked counter

A scheduler picks the next move: among the threads it may use, the first that
can do anything does it, and who has to wake somebody wakes the first sleeper.
Under this rule a thread goes on until it has finished or sleeps. The number of
moves is bounded by the work there is. Every schedule leads to the same value
of a counter; this one also lets threads meet a lock that is taken.
-/
namespace RegionHeap.Lock.System

variable {τ : Type} {n : Nat}

def moveOf? (s : System τ n) (thread : Fin n) : Option (Move n) :=
  match s.phases.get thread with
  | .outside => if (s.sections.get thread).isEmpty then none else some (.advance thread)
  | .asleep => none
  | .waking =>
    some (.wake thread ((List.finRange n).find? fun other => (s.phases.get other).isAsleep))
  | _ => some (.advance thread)

/-- Let the given threads move until none of them can, or `fuel` moves are made. -/
def drive (threads : List (Fin n)) : Nat → System τ n → System τ n
  | 0, s => s
  | fuel + 1, s =>
    match threads.findSome? s.moveOf? with
    | none => s
    | some move =>
      match s.step move with
      | some next => drive threads fuel next
      | none => s

/-- More moves than the remaining work can take under `drive`. -/
def patience (s : System τ n) : Nat :=
  s.sections.toList.foldr (fun sections rest => 16 * (sections.length + 1) + rest) 0

def finish (s : System τ n) : System τ n := s.drive (List.finRange n) s.patience

end RegionHeap.Lock.System

namespace RegionHeap.Lock

/-- A shared counter that every thread adds to a number of times. -/
structure Counter where
  start : Nat
  threads : Nat
  amount : Nat
  times : Nat
deriving Repr, DecidableEq

namespace Counter

/-- One addition; the counter is a word and wraps. -/
def bump (amount value : Nat) : Nat := (value + amount) % Word.bound

def additions (counter : Counter) : List (Nat → Nat) :=
  List.replicate counter.times (bump counter.amount)

/-- The counter after all additions, by threads that start at a free lock. -/
def contest (counter : Counter) : Nat :=
  (System.initial (n := counter.threads) counter.start
    (Vector.replicate counter.threads counter.additions)).finish.value

/-- The same around a lock that one more thread has taken first: the value when
that thread is about to unlock, and the value in the end. -/
def contestWhileHeld (counter : Counter) : Nat × Nat :=
  let holder : Fin (counter.threads + 1) := 0
  let others := (List.finRange (counter.threads + 1)).filter (· ≠ holder)
  let all := System.initial (n := counter.threads + 1) counter.start
    ((Vector.replicate (counter.threads + 1) counter.additions).set holder [id] holder.isLt)
  let held := all.drive [holder] 3
  let waited := held.drive others held.patience
  (waited.value, waited.finish.value)

end Counter

end RegionHeap.Lock
