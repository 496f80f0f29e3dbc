import RegionHeap.Fault

/-!
# Machine words

Sizes, counts and addresses are natural numbers below `2 ^ 64`. Each operation
says in its name what happens at the edge of that range: `add?` and `mul?`
answer nothing, `addSat` and `mulSat` stay at the largest word, `add` and `sub`
treat leaving the range as a fault. Rounding to a power of two is the one
operation with two failures: an alignment that is no power of two breaks an
obligation, while a result past the range is an ordinary refusal.
-/
namespace RegionHeap.Word

/-- The number of words. -/
def bound : Nat := 1 <<< 64

/-- The largest word. -/
def max : Nat := bound - 1

/-- The largest word that is not negative when read as a signed number. -/
def signedMax : Nat := (1 <<< 63) - 1

/-- Every block is aligned at least to this. -/
def minAlign : Nat := 16

def add? (a b : Nat) : Option Nat :=
  if a + b < bound then some (a + b) else none

def mul? (a b : Nat) : Option Nat :=
  if a * b < bound then some (a * b) else none

def addSat (a b : Nat) : Nat := min (a + b) max

def mulSat (a b : Nat) : Nat := min (a * b) max

def add (a b : Nat) : Checked Nat :=
  if a + b < bound then .ok (a + b) else .error .overflow

def sub (a b : Nat) : Checked Nat :=
  if b ≤ a then .ok (a - b) else .error .underflow

/-- The signed number with the same bits. -/
def signed (word : Nat) : Int :=
  if word ≤ signedMax then word else word - bound

/-- Zero is not a power of two: its logarithm is taken to be zero. -/
def isPowerOfTwo (n : Nat) : Bool := n == 1 <<< n.log2

/-- The least multiple of `unit` from `n` upwards, as a number that need not be a word. -/
def ceiling (n unit : Nat) : Nat := (n + unit - 1) / unit * unit

/-- The least multiple of `align` from `value` upwards, or nothing if no word
is one. Adding `align - 1` and clearing the low bits gives that multiple
because `align` is a power of two. -/
def roundUp (value align : Nat) : Checked (Option Nat) := do
  Checked.require (isPowerOfTwo align) .assertion
  let low ← sub align 1
  return (add? value low).map fun sum => sum &&& (max - low)

end RegionHeap.Word
