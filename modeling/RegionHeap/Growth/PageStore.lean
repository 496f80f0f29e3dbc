import RegionHeap.Word

/-!
# Page stores

A page store counts the pages of one contiguous memory that starts at a fixed
base. Growing it answers the previous number of pages, or nothing when the
store cannot grow that far. Three stores are given. `ReservedPages` stands for
a reservation of address space; `PageCounter` counts pages without any storage;
`ScriptedPages` answers whatever it was told to, conforming or not, because the
arithmetic above a store has to be right for every answer.
-/
namespace RegionHeap.Growth

/-- The size of a page of a linear memory. -/
def linearPageSize : Nat := 65536

class PageStore (μ : Type) where
  /-- The address of byte zero. -/
  base : μ → Nat
  /-- The current number of pages. -/
  size : μ → Nat
  /-- Add pages; answer the previous number of pages unless the store refuses. -/
  grow : Nat → μ → Option Nat × μ

/-- The new page count if a store of `current` pages may grow that far. The
largest word stands for a refusal, so a store that has so many pages cannot
answer with their number. -/
def enlarged? (limit current pages : Nat) : Option Nat :=
  if current = Word.max then none else (Word.add? current pages).filter (· ≤ limit)

/-- A range of address space, reserved once for at most `limit` pages. -/
structure ReservedPages where
  base : Nat
  limit : Nat
  pages : Nat
deriving Repr, DecidableEq

namespace ReservedPages

/-- Reserve room for `limit` pages, `initial` of them in use. `place` is the
system's answer to a request for address space: the base of a free range of
that many bytes, if it has one. -/
def reserve (place : Nat → Option Nat) (initial limit : Nat) : Option ReservedPages := do
  guard (limit ≠ 0 ∧ initial ≤ limit)
  let bytes ← Word.mul? limit linearPageSize
  let base ← place bytes
  return ⟨base, limit, initial⟩

/-- A system with one free range, from `2 ^ 44` on, shorter than `2 ^ 47` bytes. -/
def openRange (bytes : Nat) : Option Nat :=
  if bytes < 1 <<< 47 then some (1 <<< 44) else none

def grow (pages : Nat) (store : ReservedPages) : Option Nat × ReservedPages :=
  match enlarged? store.limit store.pages pages with
  | some next => (some store.pages, { store with pages := next })
  | none => (none, store)

instance : PageStore ReservedPages where
  base := base
  size := pages
  grow := grow

end ReservedPages

/-- A page count with a limit and an address, and no memory behind it. -/
structure PageCounter where
  base : Nat
  limit : Nat
  pages : Nat
deriving Repr, DecidableEq

namespace PageCounter

def grow (pages : Nat) (store : PageCounter) : Option Nat × PageCounter :=
  match enlarged? store.limit store.pages pages with
  | some next => (some store.pages, { store with pages := next })
  | none => (none, store)

instance : PageStore PageCounter where
  base := base
  size := pages
  grow := grow

end PageCounter

/-- A store that gives prepared answers, one for each request, and refuses when
they have run out. The largest word among them is a refusal too. -/
structure ScriptedPages where
  base : Nat
  pages : Nat
  answers : List Nat
deriving Repr, DecidableEq

namespace ScriptedPages

/-- After an answer the store has that many pages and the new ones. -/
def grow (pages : Nat) (store : ScriptedPages) : Option Nat × ScriptedPages :=
  match store.answers with
  | [] => (none, store)
  | answer :: rest =>
    if answer = Word.max then
      (none, { store with answers := rest })
    else
      (some answer, { store with answers := rest, pages := Word.addSat answer pages })

instance : PageStore ScriptedPages where
  base := base
  size := pages
  grow := grow

end ScriptedPages

end RegionHeap.Growth
