import RegionHeap.Event
import RegionHeap.Session

/-!
# Commands to a session

What can happen to a session between its start and its end, one command at a
time: the setting changes, somebody reads it, somebody starts the session once
more, growth is reported, or a text is written as it stands. The reports follow
the level in force when they are made.
-/
namespace RegionHeap.Session

inductive Command where
  /-- Give the setting a value, or take it away. -/
  | set (setting : Option (List UInt8))
  | readSetting
  | readPageSize
  | start
  | ensureReady
  | reportRejection (bytes : Nat)
  | reportGrant (bytes : Nat)
  /-- Write a text to the trace, whatever the level. -/
  | write (text : List UInt8)
deriving Repr, DecidableEq

/-- A report, answering whether it left a line. -/
def report (session : Session) (line : Checked (Option (List UInt8))) :
    Checked (Reply Bool Session) := do
  match ← line with
  | some text => return ⟨true, session, [.traced text]⟩
  | none => return ⟨false, session, []⟩

/-- Carry out a command. The answer says whether something was written. -/
def perform (command : Command) (session : Session) : Checked (Reply Bool Session) :=
  match command with
  | .set setting => return ⟨false, session.withSetting setting, []⟩
  | .readSetting => return ⟨false, session.readSetting, []⟩
  | .readPageSize => return ⟨false, session.readPageSize, []⟩
  | .start => return ⟨false, session.start, []⟩
  | .ensureReady => return ⟨false, session.ensureReady, []⟩
  | .reportRejection bytes => session.report (Trace.rejection session.level bytes)
  | .reportGrant bytes => session.report (Trace.grant session.level bytes)
  | .write text => return ⟨true, session, [.traced text]⟩

def performAll : List Command → Session → Checked (Reply (List Bool) Session)
  | [], session => return ⟨[], session, []⟩
  | command :: rest, session => do
    let first ← session.perform command
    let others ← performAll rest first.state
    return ⟨first.answer :: others.answer, others.state, first.events ++ others.events⟩

end RegionHeap.Session
