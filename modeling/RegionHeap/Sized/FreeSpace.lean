import RegionHeap.Sized.Holes

/-!
# Free space

Free addresses are the top, which ends where the newest grant is used up, the
holes below it, and the spare: what was left of the hole that was cut for a
small cell last. No two of these spans touch. A span is taken from the tightest
hole, unless the spare suits as well, then from the spare, and from the top
only if something of the top remains. A span that is given back is joined with
all that it touches and becomes part of the top, of the spare, or a new hole.
-/
namespace RegionHeap.Sized

structure FreeSpace where
  holes : Holes := []
  spare : Option Span := none
  top : Span := ⟨0, 0⟩
deriving Repr, DecidableEq

namespace FreeSpace

def give (span : Span) (free : FreeSpace) : FreeSpace :=
  let joined := (free.holes.filter span.touches).foldl Span.join span
  let holes := free.holes.filter fun hole => !span.touches hole
  match free.spare.filter span.touches, span.touches free.top with
  | none, false => { free with holes := joined :: holes }
  | some spare, false => { free with holes := holes, spare := some (joined.join spare) }
  | none, true => { free with holes := holes, top := joined.join free.top }
  | some spare, true => ⟨holes, none, (joined.join spare).join free.top⟩

/-- Give a span back, unless it is empty. -/
def giveAny (span : Span) (free : FreeSpace) : FreeSpace :=
  if span.start < span.stop then free.give span else free

/-- Take `length` addresses from the lower end of the top, which does not take all of it. -/
def takeTop? (length : Nat) (free : FreeSpace) : Option (Span × FreeSpace) :=
  let middle := free.top.start + length
  if length < free.top.length then
    some (⟨free.top.start, middle⟩, { free with top := ⟨middle, free.top.stop⟩ })
  else none

/-- Take at least `length` addresses from the spare. -/
def takeSpare? (length : Nat) (free : FreeSpace) : Option (Span × FreeSpace) := do
  let spare ← free.spare.filter (length ≤ ·.length)
  let (taken, rest) := spare.cut length
  return (taken, { free with spare := rest })

/-- Take at least `length` addresses from a hole and keep the rest as a hole. -/
def takeHole (length : Nat) (hole : Span) (free : FreeSpace) : Span × FreeSpace :=
  let (taken, rest) := hole.cut length
  (taken, { free with holes := rest.toList ++ free.holes.erase hole })

/-- Take at least `length` addresses from a hole and keep the rest, if there is
one, as the spare. The spare before becomes a hole. -/
def takeHoleToSpare (length : Nat) (hole : Span) (free : FreeSpace) : Span × FreeSpace :=
  match hole.cut length with
  | (taken, none) => (taken, { free with holes := free.holes.erase hole })
  | (taken, some rest) =>
    (taken, { free with holes := free.spare.toList ++ free.holes.erase hole, spare := some rest })

/-- Whether a hole with room for `length` addresses is used before the spare: a
small request is content with the spare unless the hole fits exactly, and for
others the shorter of the two is used. -/
def prefersHole (length : Nat) (hole : Span) (free : FreeSpace) : Bool :=
  match free.spare with
  | none => true
  | some spare =>
    spare.length < length ||
      (if length < Holes.smallBound then hole.length == length else hole.length < spare.length)

/-- Take at least `length` addresses from a hole, if there is one to be used. -/
def takeFromHoles? (length : Nat) (free : FreeSpace) : Option (Span × FreeSpace) := do
  let hole ← (free.holes.tightest? length).filter fun hole => free.prefersHole length hole
  if length < Holes.smallBound then free.takeHoleToSpare length hole
  else free.takeHole length hole

def take? (length : Nat) (free : FreeSpace) : Option (Span × FreeSpace) :=
  free.takeFromHoles? length <|> free.takeSpare? length <|> free.takeTop? length

/-- Take at least `length` addresses from `start` on. -/
def takeAt? (start length : Nat) (free : FreeSpace) : Option (Span × FreeSpace) :=
  if free.top.start = start then free.takeTop? length
  else if free.spare.any (·.start = start) then free.takeSpare? length
  else
    ((free.holes.find? (·.start = start)).filter (length ≤ ·.length)).map fun hole =>
      free.takeHole length hole

def stretchTop (stop : Nat) (free : FreeSpace) : FreeSpace :=
  { free with top := ⟨free.top.start, stop⟩ }

/-- Have another top. The old one becomes a hole if it is long enough. -/
def replaceTop (top : Span) (free : FreeSpace) : FreeSpace :=
  let holes := if free.top.length < Span.least then free.holes else free.top :: free.holes
  { free with holes := holes, top := top }

end FreeSpace

end RegionHeap.Sized
