import RegionHeap.Trace.Line

/-!
# Trace levels

A level decides which growth events leave a trace line: none, only those that
the environment refused, or all of them. The level comes from a text that need
not be a number and need not be there at all.
-/
namespace RegionHeap.Trace

/-- How much is reported about growth. -/
inductive Level where
  | off
  | rejections
  | all
deriving Repr, DecidableEq

namespace Level

/-- Levels as numbers, each including the reports of those below it. -/
def rank : Level → Nat
  | off => 0
  | rejections => 1
  | all => 2

/-- The level that a setting asks for. A missing setting is silent, a number
counts up to the highest level, and any other text, the empty one included,
asks for the rejections. -/
def ofSetting : Option (List UInt8) → Level
  | none => off
  | some text =>
    match Decimal.read? text with
    | none => rejections
    | some 0 => off
    | some 1 => rejections
    | some (_ + 2) => all

end Level

/-- The line for a growth of `bytes` that was refused, if the level asks for it. -/
def rejection (level : Level) (bytes : Nat) : Checked (Option (List UInt8)) :=
  if level.rank < Level.rejections.rank then
    return none
  else
    some <$> Line.pack (bytesOf "heapfacade: growth of ") bytes (bytesOf " bytes rejected\n")

/-- The line for a growth of `bytes` that was granted, if the level asks for it. -/
def grant (level : Level) (bytes : Nat) : Checked (Option (List UInt8)) :=
  if level.rank < Level.all.rank then
    return none
  else
    some <$> Line.pack (bytesOf "heapfacade: grew region by ") bytes (bytesOf " bytes\n")

end RegionHeap.Trace
