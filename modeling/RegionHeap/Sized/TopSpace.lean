import Std.Data.TreeMap
import RegionHeap.Sized.Allocator
import RegionHeap.Sized.FreeSpace

/-!
# The top-space allocator

A request becomes a cell of a multiple of sixteen bytes, eight more than asked
for and never fewer than thirty-two. The cell is cut from the free space below
the top if that has room, otherwise from the top if the cell is smaller than
it; otherwise the source is asked, once, for the cell and a margin in multiples
of `65536` bytes, and the cell is cut from the top that the grant makes. Of a
first or detached grant eighty bytes are kept back, of one that continues the
region none.

Alignments above sixteen take a longer span, place the cell inside it and give
back what is left before and behind. A cell gives its end back when it shrinks
by at least thirty-two bytes, grows in place if the span behind it is free and
long enough, and moves otherwise, being released only after its successor is
there.
-/
namespace RegionHeap.Sized

/-- A live block in its cell. -/
structure Cell where
  total : Nat
  align : Nat
  length : Nat
deriving Repr, DecidableEq

structure TopSpace where
  free : FreeSpace := {}
  /-- The live cells by their bases. -/
  cells : Std.TreeMap Nat Cell := ∅
  /-- Where the newest grant ends. -/
  stop : Nat := 0

namespace TopSpace

def cellLength (total : Nat) : Nat := max Span.least (Word.ceiling (total + 8) 16)

/-- Requests from this many bytes on are refused at once. -/
def maxRequest : Nat := Word.bound - 65639

/-- How much is asked for when a span of `length` bytes is missing. -/
def growthFor (length : Nat) : Nat := Word.ceiling (length + 96) 65536

/-- The request that leaves room to align a block of `total` bytes. -/
def request (total align : Nat) : Nat :=
  if align ≤ Word.minAlign then total else cellLength total + max align 32 + 24

/-- Whether a request is beyond what is ever tried. -/
def exceeds (total align : Nat) : Bool :=
  maxRequest ≤ (if align ≤ Word.minAlign then total else total + max align 32) ||
    maxRequest ≤ request total align

def room (s : TopSpace) : Nat := s.free.top.length

/-- The state after a grant, unless the grant is at address zero, reaches below
the end of an earlier one, or leaves the address space. -/
def extend? (s : TopSpace) (grant : Growth.Grant) : Option TopSpace := do
  guard (grant.base ≠ 0 ∧ s.stop ≤ grant.base ∧ grant.base + grant.size ≤ Word.bound)
  let stop := grant.base + grant.size
  let limit := (stop - 64) / 16 * 16
  if grant.base = s.stop then
    guard (s.free.top.stop < limit)
    return { s with free := s.free.stretchTop limit, stop := stop }
  else
    let start := Word.ceiling (grant.base + 16) 16
    guard (start < limit)
    return { s with free := s.free.replaceTop ⟨start, limit⟩, stop := stop }

/-- Take a span of at least `length` bytes, asking for more memory at most once. -/
def takeSpan (s : TopSpace) (length : Nat) : Dialogue (Option (Span × TopSpace)) :=
  match s.free.take? length with
  | some (span, free) => .done (some (span, { s with free := free }))
  | none => .ask (growthFor length) fun grant => .done do
    let extended ← s.extend? (← grant)
    let (span, free) ← extended.free.takeTop? length
    return (span, { extended with free := free })

/-- Where an aligned block starts in a span: at its start, or so far behind it
that the bytes before the block are more than the least span. -/
def alignedBase (start align : Nat) : Nat :=
  if start % align = 0 then start
  else if Word.ceiling start align - start ≤ Span.least then Word.ceiling start align + align
  else Word.ceiling start align

/-- Where the cell of `length` bytes at `base` ends in a span that ends at
`stop`: an end of at most the least length stays with the cell. -/
def cellStop (base length stop : Nat) : Nat :=
  if stop - (base + length) ≤ Span.least then stop else base + length

/-- Place an aligned block in a span and give back what is before and behind it. -/
def place (total align : Nat) (span : Span) (free : FreeSpace) : Span × FreeSpace :=
  let base := alignedBase span.start align
  let stop := cellStop base (cellLength total) span.stop
  (⟨base, stop⟩, (free.giveAny ⟨span.start, base⟩).giveAny ⟨stop, span.stop⟩)

/-- Make a cell for a block in a span that was taken for it. -/
def occupy (s : TopSpace) (total align : Nat) (span : Span) : Nat × TopSpace :=
  let (kept, free) :=
    if align ≤ Word.minAlign then (span, s.free) else place total align span s.free
  (kept.start, { s with
    free := free, cells := s.cells.insert kept.start ⟨total, align, kept.length⟩ })

def acquire (cleared : Bool) (total align : Nat) (s : TopSpace) (m : Memory) :
    Dialogue (Outcome TopSpace) :=
  if exceeds total align then
    .done ⟨none, s, m⟩
  else
    let length := cellLength (request total align)
    (s.takeSpan length).map fun
      | none => ⟨none, s, m⟩
      | some (span, found) =>
        let (base, occupied) := found.occupy total align span
        ⟨some base, occupied, if cleared then m.fill base total 0 else m⟩

def cell? (s : TopSpace) (block : Block) : Option Cell :=
  s.cells[block.base]?.filter fun cell => cell.total = block.total ∧ cell.align = block.align

/-- The cell of a block that has to be live. -/
def cellOf (s : TopSpace) (block : Block) : Checked Cell :=
  match s.cell? block with
  | some cell => .ok cell
  | none => .error .deadBlock

def vacate (s : TopSpace) (base length : Nat) : TopSpace :=
  { s with free := s.free.give ⟨base, base + length⟩, cells := s.cells.erase base }

/-- Shorten a cell to `length` bytes if that frees enough to matter. -/
def shrink (s : TopSpace) (block : Block) (cell : Cell) (total length : Nat) : TopSpace :=
  if cell.length - length < Span.least then
    { s with cells := s.cells.insert block.base ⟨total, block.align, cell.length⟩ }
  else
    { s with
      free := s.free.give ⟨block.base + length, block.base + cell.length⟩
      cells := s.cells.insert block.base ⟨total, block.align, length⟩ }

/-- Lengthen a cell to at least `length` bytes by the free span behind it, if
there is one and it is long enough. -/
def stretch? (s : TopSpace) (block : Block) (cell : Cell) (total length : Nat) :
    Option TopSpace := do
  let (span, free) ← s.free.takeAt? (block.base + cell.length) (length - cell.length)
  return { s with
    free := free
    cells := s.cells.insert block.base ⟨total, block.align, cell.length + span.length⟩ }

/-- Get a new block, copy the old bytes and release the old block. -/
def move (s : TopSpace) (m : Memory) (block : Block) (cell : Cell) (total : Nat) :
    Dialogue (Outcome TopSpace) :=
  (acquire false total block.align s m).map fun outcome =>
    match outcome.base with
    | none => ⟨none, s, m⟩
    | some base =>
      ⟨some base, outcome.state.vacate block.base cell.length,
        outcome.memory.copy base block.base (min block.total total)⟩

def resize (block : Block) (total : Nat) (s : TopSpace) (m : Memory) :
    Checked (Dialogue (Outcome TopSpace)) := do
  let cell ← s.cellOf block
  let length := cellLength total
  if exceeds total block.align then
    return .done ⟨none, s, m⟩
  else if Word.minAlign < block.align then
    return s.move m block cell total
  else if length ≤ cell.length then
    return .done ⟨some block.base, s.shrink block cell total length, m⟩
  else
    match s.stretch? block cell total length with
    | some stretched => return .done ⟨some block.base, stretched, m⟩
    | none => return s.move m block cell total

def release (block : Block) (s : TopSpace) (m : Memory) : Checked (TopSpace × Memory) := do
  let cell ← s.cellOf block
  return (s.vacate block.base cell.length, m)

instance : Allocator TopSpace where
  empty := {}
  acquire := acquire
  resize := resize
  release := release
  Live s block := ∃ cell, s.cell? block = some cell

end TopSpace

end RegionHeap.Sized
