import RegionHeap.Trace.Level

/-!
# Sessions

A session is what a process settles once and then relies on: the page size of
the system and the trace level. Both are fixed by the first start. Reading the
setting again is a separate act, and changing the setting alone changes
nothing.
-/
namespace RegionHeap

/-- The page size assumed before a session has started. -/
def defaultPageSize : Nat := 4096

/-- How far the start of a session has come. -/
inductive Phase where
  | cold
  | starting
  | ready
deriving Repr, DecidableEq

structure Session where
  /-- The current value of the trace setting, if it has one. -/
  setting : Option (List UInt8)
  /-- The page size that the system reports. It may be any number. -/
  reported : Nat
  level : Trace.Level := .off
  pageSize : Nat := defaultPageSize
  phase : Phase := .cold
deriving Repr, DecidableEq

namespace Session

/-- Take the trace level from the setting as it is now. -/
def readSetting (session : Session) : Session :=
  { session with level := .ofSetting session.setting }

/-- Take the page size from the system unless it is no power of two. -/
def readPageSize (session : Session) : Session :=
  { session with
    pageSize := if Word.isPowerOfTwo session.reported then session.reported else defaultPageSize }

/-- Start a session that is cold. Once is enough: a session that is ready, or
that another thread is starting, stays as it is. -/
def start (session : Session) : Session :=
  match session.phase with
  | .cold => { ({ session with phase := .starting }).readPageSize.readSetting with phase := .ready }
  | .starting | .ready => session

def isReady (session : Session) : Bool := session.phase == .ready

/-- Start the session unless it is ready. -/
def ensureReady (session : Session) : Session :=
  if session.isReady then session else session.start

/-- Change the setting; the session is not told. -/
def withSetting (session : Session) (setting : Option (List UInt8)) : Session :=
  { session with setting := setting }

end Session

end RegionHeap
