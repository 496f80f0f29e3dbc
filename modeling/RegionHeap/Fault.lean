/-!
# Faults

Running out of memory is an answer of this library, never a fault. A fault is
an event that correct use can never produce: arithmetic that leaves the machine
word, a bound that does not hold, or an access outside every live block. The
definitions below check for them instead of assuming them away, so that their
absence can be proved rather than read off a convention.
-/
namespace RegionHeap

/-- A broken obligation, named for its cause. -/
inductive Fault where
  /-- A sum or product left the range of a word. -/
  | overflow
  /-- A difference of words would be negative. -/
  | underflow
  /-- A condition that the program states about itself is false. -/
  | assertion
  /-- An index, a slice or a copy does not fit its buffer. -/
  | outOfBounds
  /-- A block was resized or released that is not live under that description. -/
  | deadBlock
  /-- A byte was read or written outside every live block. -/
  | strayAccess
deriving Repr, DecidableEq

/-- A computation that may break one of its obligations. -/
abbrev Checked := Except Fault

/-- Continue only if `condition` holds. -/
def Checked.require (condition : Prop) [Decidable condition] (fault : Fault) : Checked Unit :=
  if condition then .ok () else .error fault

end RegionHeap
