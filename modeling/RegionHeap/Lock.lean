/-!
# A lock that sleeps

The lock is one word. A thread tries once to turn it from unlocked to locked;
failing that, it keeps swapping in the contended value until the swap finds the
word unlocked, and sleeps between two swaps as long as the word is contended.
Unlocking swaps the word back, and whoever finds that it was contended wakes
one sleeper. Every atomic operation is one move of one thread here, including
the comparison that decides whether a thread falls asleep, and sleepers may
also wake for no reason. While a thread holds the lock it reads a shared value
and writes back what its section makes of it, in two moves.
-/
namespace RegionHeap.Lock

/-- The three values of the lock word. -/
inductive State where
  | unlocked
  | locked
  | contended
deriving Repr, DecidableEq

/-- Where a thread stands. -/
inductive Phase (τ : Type) where
  /-- Before the first try, or with nothing left to do. -/
  | outside
  /-- About to swap in the contended value. -/
  | contending
  /-- About to compare the word and fall asleep. -/
  | waiting
  | asleep
  /-- Holding the lock, about to read the value. -/
  | entered
  /-- Holding the lock with the value it has read. -/
  | loaded (value : τ)
  /-- Holding the lock, about to unlock. -/
  | leaving
  /-- Past the unlock, about to wake a sleeper. -/
  | waking
deriving Repr, DecidableEq

namespace Phase
variable {τ : Type}

/-- Whether the thread is between taking the lock and giving it back. -/
def holds : Phase τ → Bool
  | entered | loaded _ | leaving => true
  | _ => false

def isAsleep : Phase τ → Bool
  | asleep => true
  | _ => false

def isWaking : Phase τ → Bool
  | waking => true
  | _ => false

end Phase

/-- A lock with `n` threads around a value of type `τ`. -/
structure System (τ : Type) (n : Nat) where
  word : State
  value : τ
  phases : Vector (Phase τ) n
  /-- The sections that each thread has still to finish. -/
  sections : Vector (List (τ → τ)) n

/-- What can happen next. -/
inductive Move (n : Nat) where
  /-- A thread does its next operation, unless that is to wake somebody. -/
  | advance (thread : Fin n)
  /-- A thread wakes a sleeper, or nobody if nobody sleeps. -/
  | wake (thread : Fin n) (sleeper : Option (Fin n))
  /-- A sleeper wakes by itself. -/
  | rouse (sleeper : Fin n)
deriving Repr, DecidableEq

namespace System
variable {τ : Type} {n : Nat}

/-- A free lock around a value. -/
def initial (value : τ) (sections : Vector (List (τ → τ)) n) : System τ n :=
  ⟨.unlocked, value, Vector.replicate n .outside, sections⟩

def withPhase (s : System τ n) (thread : Fin n) (phase : Phase τ) : System τ n :=
  { s with phases := s.phases.set thread phase thread.isLt }

/-- The first try: turn the word from unlocked to locked. -/
def tryLock (s : System τ n) (thread : Fin n) : System τ n :=
  match s.word with
  | .unlocked => { s with word := .locked }.withPhase thread .entered
  | .locked | .contended => s.withPhase thread .contending

/-- Swap in the contended value. -/
def swapContended (s : System τ n) (thread : Fin n) : System τ n :=
  { s with word := .contended }.withPhase thread <|
    match s.word with
    | .unlocked => .entered
    | .locked | .contended => .waiting

/-- Fall asleep if the word is still contended. -/
def fallAsleep (s : System τ n) (thread : Fin n) : System τ n :=
  s.withPhase thread <|
    match s.word with
    | .contended => .asleep
    | .unlocked | .locked => .contending

/-- Write back what the next section makes of the value that was read. -/
def store (s : System τ n) (thread : Fin n) (read : τ) : System τ n :=
  match s.sections.get thread with
  | [] => s.withPhase thread .leaving
  | change :: rest =>
    { s with value := change read, sections := s.sections.set thread rest thread.isLt }.withPhase
      thread .leaving

/-- Swap in the unlocked value. -/
def unlock (s : System τ n) (thread : Fin n) : System τ n :=
  { s with word := .unlocked }.withPhase thread <|
    match s.word with
    | .contended => .waking
    | .unlocked | .locked => .outside

/-- The next operation of a thread, if it has one to do by itself. -/
def advance (s : System τ n) (thread : Fin n) : Option (System τ n) :=
  match s.phases.get thread with
  | .outside => if (s.sections.get thread).isEmpty then none else some (s.tryLock thread)
  | .contending => some (s.swapContended thread)
  | .waiting => some (s.fallAsleep thread)
  | .asleep => none
  | .entered => some (s.withPhase thread (.loaded s.value))
  | .loaded value => some (s.store thread value)
  | .leaving => some (s.unlock thread)
  | .waking => none

/-- One move, if it can happen. -/
def step (s : System τ n) : Move n → Option (System τ n)
  | .advance thread => s.advance thread
  | .wake thread (some sleeper) =>
    if (s.phases.get thread).isWaking ∧ (s.phases.get sleeper).isAsleep then
      some ((s.withPhase sleeper .contending).withPhase thread .outside)
    else
      none
  | .wake thread none =>
    if (s.phases.get thread).isWaking ∧ ∀ other : Fin n, ¬(s.phases.get other).isAsleep then
      some (s.withPhase thread .outside)
    else
      none
  | .rouse sleeper =>
    if (s.phases.get sleeper).isAsleep then some (s.withPhase sleeper .contending) else none

/-- Make moves in order, as long as they can happen. -/
def run (s : System τ n) : List (Move n) → Option (System τ n)
  | [] => some s
  | move :: rest => do (← s.step move).run rest

/-- The states that some sequence of moves leads to. -/
inductive Reaches (start : System τ n) : System τ n → Prop
  | start : Reaches start start
  | step {s next : System τ n} (move : Move n) :
      Reaches start s → s.step move = some next → Reaches start next

end System

end RegionHeap.Lock
