import RegionHeap.Growth.Provider
import RegionHeap.Session

/-!
# Growth through the heap break

The break is the end of a process's data. The system moves it by exactly the
bytes asked for, rounding nothing, or refuses; this model refuses from `2 ^ 47`
bytes on and where the address space would end. Negative deltas never reach
the system. The unit of growth is the page size of the session, which is
started first if it was not.
-/
namespace RegionHeap.Growth

structure Break where
  session : Session
  /-- The current break. -/
  top : Nat
deriving Repr, DecidableEq

namespace Break

/-- The break of a process that has grown nothing yet. -/
def initial (session : Session) : Break := ⟨session, 1 <<< 40⟩

/-- The system's part: move the break by `delta` bytes and answer where it was. -/
def advance (delta : Nat) (process : Break) : Option Nat × Break :=
  if delta < 1 <<< 47 ∧ process.top + delta < Word.max then
    (some process.top, { process with top := process.top + delta })
  else
    (none, process)

def grow (delta : Int) (process : Break) : Checked (Reply (Option Nat) Break) :=
  if delta < 0 then
    return ⟨none, process, []⟩
  else
    let (previous, process) := process.advance delta.toNat
    return ⟨previous, process, []⟩

instance : Provider Break where
  grow := grow
  pageSize process := process.session.ensureReady.pageSize

end Break

end RegionHeap.Growth
