import RegionHeap.Proofs.Trace.Notes
import RegionHeap.Session.Command

/-!
# The diagnostics of a session

Once a session is ready, only reading the setting changes the level in force, which is therefore
that of the setting as it was when it was read last. A report is answered with whether it left
a line, and that depends on this level alone. Every line is whole and about the number that was
reported, so the trace of a run tells which reports left a line, in their order, and nothing
else is needed to recover them.
-/
namespace RegionHeap.Session

open Checked
open Trace (Level Note notes? notes?_flatMap)

variable {session : Session} {setting read : Option (List UInt8)} {command : Command}
  {commands rest : List Command}

namespace Command

/-- What a program does about the diagnostics while it runs, with numbers that are words. -/
def Diagnostic : Command → Prop
  | set _ | readSetting | start | ensureReady => True
  | reportRejection bytes | reportGrant bytes => bytes < Word.bound
  | readPageSize | write _ => False

instance : DecidablePred Diagnostic
  | set _ | readSetting | start | ensureReady => isTrue trivial
  | reportRejection bytes | reportGrant bytes => inferInstanceAs (Decidable (bytes < Word.bound))
  | readPageSize | write _ => isFalse id

/-- What a report is about. -/
def note? : Command → Option Note
  | reportRejection bytes => some (.rejection bytes)
  | reportGrant bytes => some (.grant bytes)
  | _ => none

/-- Rejections are written from the first level on, grants at the second one. -/
def leavesLine (level : Level) : Command → Bool
  | reportRejection _ => 1 ≤ level.rank
  | reportGrant _ => level.rank = 2
  | _ => false

/-- The setting after the command. -/
def changes (setting : Option (List UInt8)) : Command → Option (List UInt8)
  | set next => next
  | _ => setting

end Command

/-- The setting after the commands. -/
def settingAfter (setting : Option (List UInt8)) (commands : List Command) :
    Option (List UInt8) :=
  commands.foldl Command.changes setting

/-- What the setting was when it was read last. Before the commands it was `setting`, and what
had been read was `read`. -/
inductive LastRead (setting read : Option (List UInt8)) :
    List Command → Option (List UInt8) → Prop
  | never {commands : List Command} :
      .readSetting ∉ commands → LastRead setting read commands read
  | again {before after : List Command} : .readSetting ∉ after →
      LastRead setting read (before ++ .readSetting :: after) (settingAfter setting before)

/-- The notes of the reports that were answered with a line. -/
def notesOf (commands : List Command) (answers : List Bool) : List Note :=
  (commands.zip answers).filterMap fun (command, wrote) => if wrote then command.note? else none

theorem notesOf_cons (command : Command) (wrote : Bool) (rest : List Command)
    (answers : List Bool) : notesOf (command :: rest) (wrote :: answers) =
      (if wrote then command.note? else none).toList ++ notesOf rest answers := by
  rw [notesOf, List.zip_cons_cons, List.filterMap_cons]
  dsimp only
  split
  · rename_i hnone
    rw [hnone]
    rfl
  · rename_i hsome
    rw [hsome]
    rfl

structure Diagnosed (setting read : Option (List UInt8)) (commands : List Command)
    (reply : Reply (List Bool) Session) : Prop where
  ready : reply.state.phase = .ready
  level : ∃ last, LastRead setting read commands last ∧ reply.state.level = .ofSetting last
  /-- A report goes by the level in force when it is made. -/
  answers : ∀ {before command after}, commands = before ++ command :: after →
    ∃ last, LastRead setting read before last ∧
      reply.answer[before.length]? = some (command.leavesLine (.ofSetting last))
  events : reply.events =
    (notesOf commands reply.answer).map fun note => .traced note.line

theorem LastRead.cons {last : Option (List UInt8)}
    (h : LastRead (command.changes setting) (if command = .readSetting then setting else read)
      rest last) : LastRead setting read (command :: rest) last := by
  cases h with
  | never hrest =>
    split
    · rename_i heq
      subst heq
      exact @LastRead.again setting read [] rest hrest
    · rename_i hne
      exact .never (List.not_mem_cons_of_ne_of_not_mem (Ne.symm hne) hrest)
  | @again before after hafter =>
    exact @LastRead.again setting read (command :: before) after hafter

/-- The session after a command of a ready session. -/
def after (session : Session) (command : Command) : Session :=
  { session with
    setting := command.changes session.setting
    level := if command = .readSetting then .ofSetting session.setting else session.level }

theorem perform_eq (hready : session.phase = .ready) (h : command.Diagnostic) :
    session.perform command = .ok ⟨command.leavesLine session.level, session.after command,
      ((if command.leavesLine session.level then command.note? else none).map fun note =>
        Event.traced note.line).toList⟩ := by
  cases command with
  | readPageSize => cases h
  | write text => cases h
  | set next => rfl
  | readSetting => rfl
  | start =>
    have hstart : session.start = session := by rw [start, hready]
    rw [perform, hstart]
    rfl
  | ensureReady =>
    have hisReady : session.isReady := by rw [isReady, hready]; rfl
    rw [perform, ensureReady, if_pos hisReady]
    rfl
  | reportRejection bytes =>
    rw [perform, report, Trace.rejection_eq session.level h]
    cases session.level <;> rfl
  | reportGrant bytes =>
    rw [perform, report, Trace.grant_eq session.level h]
    cases session.level <;> rfl

namespace Diagnosed

theorem nil (hready : session.phase = .ready) (hread : session.level = .ofSetting read) :
    Diagnosed setting read [] ⟨[], session, []⟩ where
  ready := hready
  level := ⟨read, .never List.not_mem_nil, hread⟩
  answers h := by simp at h
  events := rfl

theorem cons {reply : Reply (List Bool) Session} {level : Level}
    (hread : level = .ofSetting read)
    (h : Diagnosed (command.changes setting) (if command = .readSetting then setting else read)
      rest reply) :
    Diagnosed setting read (command :: rest) ⟨command.leavesLine level :: reply.answer,
      reply.state, ((if command.leavesLine level then command.note? else none).map fun note =>
        Event.traced note.line).toList ++ reply.events⟩ where
  ready := h.ready
  level := by
    obtain ⟨last, hlast, hlevel⟩ := h.level
    exact ⟨last, hlast.cons, hlevel⟩
  answers := by
    intro before other after heq
    cases before with
    | nil =>
      obtain ⟨rfl, rfl⟩ := List.cons.inj heq
      exact ⟨read, .never List.not_mem_nil, by rw [hread]; rfl⟩
    | cons first before =>
      obtain ⟨rfl, hrest⟩ := List.cons.inj heq
      obtain ⟨last, hlast, hanswer⟩ := h.answers hrest
      exact ⟨last, hlast.cons, hanswer⟩
  events := by
    rw [h.events, notesOf_cons, List.map_append, Option.toList_map]

theorem run (hready : session.phase = .ready) (hread : session.level = .ofSetting read)
    (h : ∀ command ∈ commands, command.Diagnostic) :
    ∃ reply, session.performAll commands = .ok reply ∧
      Diagnosed session.setting read commands reply := by
  induction commands generalizing session read with
  | nil => exact ⟨_, rfl, .nil hready hread⟩
  | cons command rest ih =>
    obtain ⟨hcommand, hrest⟩ := List.forall_mem_cons.mp h
    have hready' : (session.after command).phase = .ready := hready
    have hread' : (session.after command).level =
        .ofSetting (if command = .readSetting then session.setting else read) := by
      rw [after, hread]
      split <;> rfl
    obtain ⟨reply, hreply, diagnosed⟩ := ih hready' hread' hrest
    refine ⟨_, ?_, diagnosed.cons hread⟩
    rw [performAll, perform_eq hready hcommand, ok_bind, hreply, ok_bind, pure_eq_ok]

theorem words (h : ∀ command ∈ commands, command.Diagnostic) (answers : List Bool) :
    ∀ note ∈ notesOf commands answers, note.bytes < Word.bound := by
  intro note hmem
  obtain ⟨⟨command, wrote⟩, hpair, hnote⟩ := List.mem_filterMap.mp hmem
  have hcommand := h command (List.of_mem_zip hpair).1
  have hnote : command.note? = some note := (Option.ite_none_right_eq_some.mp hnote).2
  cases command with
  | reportRejection bytes =>
    obtain rfl := Option.some.inj hnote
    exact hcommand
  | reportGrant bytes =>
    obtain rfl := Option.some.inj hnote
    exact hcommand
  | _ => cases hnote

theorem text {reply : Reply (List Bool) Session} (h : Diagnosed setting read commands reply) :
    Event.traceText reply.events = (notesOf commands reply.answer).flatMap Note.line := by
  rw [h.events, Event.traceText, List.flatMap_map]

end Diagnosed

/-- A ready session carries out every sequence of commands about its diagnostics, whatever the
settings and whatever words are reported. The level in force is at each command that of the
setting when it was read last; a change alone and another start have no part in it. A rejection
is answered with a line exactly from the first level on, a grant exactly at the second. The
trace is made of these lines, one after the other and none of them cut, and is read back as the
notes that they stand for. A process that has started its session has read the setting then. -/
theorem diagnostics_of_run (hready : session.phase = .ready)
    (hread : session.level = .ofSetting read) (h : ∀ command ∈ commands, command.Diagnostic) :
    (∃ reply, session.performAll commands = .ok reply ∧
      Diagnosed session.setting read commands reply ∧
      Event.traceText reply.events = (notesOf commands reply.answer).flatMap Note.line ∧
      (∀ note ∈ notesOf commands reply.answer, note.line.length ≤ Trace.Line.capacity) ∧
      notes? (Event.traceText reply.events) = some (notesOf commands reply.answer)) ∧
    ∀ (setting : Option (List UInt8)) (reported : Nat),
      (start { setting, reported }).phase = .ready ∧
        (start { setting, reported }).level = .ofSetting setting := by
  obtain ⟨reply, hreply, diagnosed⟩ := Diagnosed.run hready hread h
  have hwords := Diagnosed.words h reply.answer
  refine ⟨⟨reply, hreply, diagnosed, diagnosed.text,
    fun note hmem => Note.length_line_le (hwords note hmem), ?_⟩, fun _ _ => ⟨rfl, rfl⟩⟩
  rw [diagnosed.text, notes?_flatMap hwords]

/-- The setting goes from the rejections to everything and back to nothing, and only what was
read counts. -/
def changing : List Command :=
  [.reportGrant 5, .set (some (Trace.bytesOf "2")), .start, .ensureReady,
    .reportRejection Word.max, .reportGrant 5, .readSetting, .reportGrant 0, .set none,
    .reportRejection 7, .readSetting, .reportRejection 8]

/-- A session that was started to report the rejections. -/
def rejecting : Session := start { setting := some (Trace.bytesOf "1"), reported := 4096 }

theorem diagnostics_of_run_changing : ∃ reply, rejecting.performAll changing = .ok reply ∧
    reply.answer =
      [false, false, false, false, true, false, false, true, false, true, false, false] ∧
    notes? (Event.traceText reply.events) =
      some [.rejection Word.max, .grant 0, .rejection 7] := by
  have hread : rejecting.level = .ofSetting (some (Trace.bytesOf "1")) := rfl
  have hchanging : ∀ command ∈ changing, command.Diagnostic := by decide
  obtain ⟨⟨reply, hreply, -, -, -, hnotes⟩, -⟩ := diagnostics_of_run rfl hread hchanging
  have hanswer : (rejecting.performAll changing).toOption.map Reply.answer =
      some [false, false, false, false, true, false, false, true, false, true, false, false] := by
    decide +kernel
  rw [hreply] at hanswer
  have hanswer := Option.some.inj hanswer
  refine ⟨reply, hreply, hanswer, hnotes.trans ?_⟩
  rw [hanswer]
  rfl

end RegionHeap.Session
