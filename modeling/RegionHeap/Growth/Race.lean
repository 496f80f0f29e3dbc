import RegionHeap.Growth.PageStore

/-!
# Racing for pages

Several threads grow one page count without a lock. Each call loads the count,
works out the new one, and tries to replace exactly the count it has seen; when
that fails it goes on with the count it was told. A call gives up when the new
count would exceed the limit, possibly judging by a count that is no longer
current. The attempt may also fail for no reason. Every finished call is kept
in a log with the previous count that it was given, if any.
-/
namespace RegionHeap.Growth.Race

/-- Where a thread stands in its current call. -/
inductive Phase where
  | ready
  /-- The count that the thread believes to be current. -/
  | seen (count : Nat)
deriving Repr, DecidableEq

/-- A finished call. -/
structure Finished where
  thread : Nat
  pages : Nat
  previous : Option Nat
deriving Repr, DecidableEq

/-- A page count and the threads that grow it. -/
structure State (n : Nat) where
  limit : Nat
  count : Nat
  phases : Vector Phase n
  /-- The page numbers that each thread has still to ask for. -/
  requests : Vector (List Nat) n
  /-- The finished calls, the newest first. -/
  log : List Finished := []
deriving Repr, DecidableEq

inductive Move (n : Nat) where
  /-- A thread starts its next call by loading the count. -/
  | load (thread : Fin n)
  /-- A thread tries to replace the count it has seen. -/
  | attempt (thread : Fin n) (spurious : Bool)
deriving Repr, DecidableEq

namespace State
variable {n : Nat}

def initial (limit count : Nat) (requests : Vector (List Nat) n) : State n :=
  ⟨limit, count, Vector.replicate n .ready, requests, []⟩

def withPhase (s : State n) (thread : Fin n) (phase : Phase) : State n :=
  { s with phases := s.phases.set thread phase thread.isLt }

/-- The call of a thread is over. -/
def finish (s : State n) (thread : Fin n) (pages : Nat) (rest : List Nat)
    (previous : Option Nat) : State n :=
  { s.withPhase thread .ready with
    requests := s.requests.set thread rest thread.isLt
    log := ⟨thread, pages, previous⟩ :: s.log }

/-- Replace the count if it is the one that was seen. -/
def replace (s : State n) (thread : Fin n) (pages : Nat) (rest : List Nat)
    (seen next : Nat) (spurious : Bool) : State n :=
  if s.count = seen ∧ ¬spurious then
    { s with count := next }.finish thread pages rest (some seen)
  else
    s.withPhase thread (.seen s.count)

def step (s : State n) : Move n → Option (State n)
  | .load thread =>
    match s.phases.get thread, s.requests.get thread with
    | .ready, _ :: _ => some (s.withPhase thread (.seen s.count))
    | _, _ => none
  | .attempt thread spurious =>
    match s.phases.get thread, s.requests.get thread with
    | .seen count, pages :: rest =>
      match enlarged? s.limit count pages with
      | none => some (s.finish thread pages rest none)
      | some next => some (s.replace thread pages rest count next spurious)
    | _, _ => none

/-- The states that some sequence of moves leads to. -/
inductive Reaches (start : State n) : State n → Prop
  | start : Reaches start start
  | step {s next : State n} (move : Move n) :
      Reaches start s → s.step move = some next → Reaches start next

/-- The move of a thread in the middle of a call, or at the start of one. -/
def moveOf (s : State n) (thread : Fin n) : Move n :=
  match s.phases.get thread with
  | .ready => .load thread
  | .seen _ => .attempt thread false

/-- Let every thread make one move if it can. -/
def turn (s : State n) : State n :=
  (List.finRange n).foldl (fun s thread => (s.step (s.moveOf thread)).getD s) s

/-- Let the threads take turns. -/
def turns : Nat → State n → State n
  | 0, s => s
  | rounds + 1, s => turns rounds s.turn

/-- Enough turns for all calls. After a turn in which no call finishes, every
thread has seen the current count, so the first attempt of the next turn ends
its call. -/
def patience (s : State n) : Nat :=
  2 * s.requests.toList.foldr (fun requests rest => requests.length + 1 + rest) 0

/-- Let the threads take turns until every call is finished. -/
def contest (s : State n) : State n := s.turns s.patience

/-- The previous counts that calls were given, the lowest first. -/
def grants (s : State n) : List Nat :=
  (s.log.filterMap (·.previous)).mergeSort

/-- The number of calls that were given nothing. -/
def refusals (s : State n) : Nat :=
  s.log.countP fun finished => finished.previous.isNone

/-- Whether the given counts start at `first` and follow each other at a
distance of `pages`. -/
def isContiguous (s : State n) (first pages : Nat) : Bool :=
  s.grants = (List.range s.grants.length).map fun i => first + i * pages

end State

end RegionHeap.Growth.Race
