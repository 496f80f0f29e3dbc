import RegionHeap.Fault

/-!
# Events

An operation answers with a value, a new state and the events it caused, in
order. Events are what the world outside could have seen: questions to the
environment with their answers, notices to an observer, lines of trace output.
Keeping them in one list keeps their order comparable.
-/
namespace RegionHeap

/-- A component that asked to be told when the region grows. -/
structure Observer where
  name : String
deriving Repr, DecidableEq

inductive Event where
  /-- A page store was asked for pages and told its previous size, or refused. -/
  | pagesAsked (pages : Nat) (previous : Option Nat)
  /-- A provider was asked to grow and gave the old top, or refused. -/
  | growthAsked (delta : Int) (base : Option Nat)
  /-- An observer was told of a new block. -/
  | noticed (observer : Observer) (base bytes : Nat)
  /-- A line was written to the trace. -/
  | traced (line : List UInt8)
deriving Repr, DecidableEq

/-- The outcome of an operation on a state of type `σ`. -/
structure Reply (α : Type) (σ : Type) where
  answer : α
  state : σ
  events : List Event

/-- All trace output among the events, in order. -/
def Event.traceText (events : List Event) : List UInt8 :=
  events.flatMap fun
    | .traced line => line
    | _ => []

end RegionHeap
