import RegionHeap.Proofs.Framed.Account
import RegionHeap.Proofs.Growth.Tale
import RegionHeap.Proofs.Script

/-!
# Tracing a framed heap

The trace setting decides what is written and nothing else. A framed heap comes to
its source through the dialogues of its allocator and makes nothing of the level,
so each request is one tale under all settings, and so is each script that is
played on the heap. Two runs of a script therefore give the same answers, leave the
same state and cause the same events, and the lines of the one with the lower
level are among those of the other.
-/
namespace RegionHeap

open Checked
open Growth (Break Caused Provider Recounts Report Setting isRejection linesIn linesIn_told linesOf
  linesOf_off linesOf_rejections traceText_eq unwritten unwritten_told)
open Trace (Level)

namespace Framed

open Sized (Allocator AsksWords Dialogue)

variable {α ρ : Type}

/-- The heap with the level of the setting, and with a provider that may show the setting. -/
def under (view : Setting → ρ → ρ) (setting : Setting) (heap : Framed α ρ) : Framed α ρ :=
  { heap with level := .ofSetting setting, provider := view setting heap.provider }

variable [Allocator α] [Provider ρ] {view : Setting → ρ → ρ} {request : Request}

section serve

variable (heap : Framed α ρ)

theorem enter_resize (user : Nat) (old : Header) (size total : Nat) :
    heap.enter (.resize user old size total) =
      (blockOf user old >>= (Allocator.resize · total heap.allocator heap.memory)) >>=
        fun dialogue => heap.place ⟨size, old.align⟩ dialogue :=
  (bind_assoc ..).symm

theorem enter_release (user : Nat) (header : Header) :
    heap.enter (.release user header) =
      (blockOf user header >>= (Allocator.release · heap.allocator heap.memory)) >>=
        fun released => .ok ⟨.answered none,
          { heap with allocator := released.1, memory := released.2 }, []⟩ :=
  (bind_assoc ..).symm

theorem serve_of_failed {critical : Critical} {fault : Fault}
    (h : Call.opened heap.memory request = .entering critical)
    (hfailed : heap.enter critical = .error fault) : heap.serve request = .error fault := by
  change (heap.step (Call.opened heap.memory request)).bind _ = _
  rw [h]
  change (heap.enter critical).bind _ = _
  rw [hfailed]
  rfl

theorem recounts_failed {critical : Critical} {fault : Fault}
    (h : Call.opened heap.memory request = .entering critical)
    (hfailed : ∀ setting, (heap.under view setting).enter critical = .error fault) :
    Recounts ρ (under view) fun setting => (heap.under view setting).serve request := by
  have hserve : ∀ setting, (heap.under view setting).serve request = .error fault :=
    fun setting => (heap.under view setting).serve_of_failed h (hfailed setting)
  simp only [hserve]
  exact .fails fault

theorem recounts_placed (blind : Provider.Blind view) {dialogue : Dialogue (Outcome α)}
    (hasks : dialogue.Asks fun bytes => 0 < bytes ∧ bytes < Word.bound) {critical : Critical}
    (header : Header) (h : Call.opened heap.memory request = .entering critical)
    (henter : ∀ setting, (heap.under view setting).enter critical =
      (heap.under view setting).place header dialogue) :
    Recounts ρ (under view) fun setting => (heap.under view setting).serve request := by
  have hserve : ∀ setting, (heap.under view setting).serve request = (do
      let reply ← dialogue.run (.ofSetting setting) (view setting heap.provider)
      return (heap.under view setting).settled header reply) :=
    fun setting => serve_of_placed h (henter setting)
  simp only [hserve]
  have hdialogue := dialogue.recounts blind (hasks.mono fun _ => And.right) heap.provider
  exact hdialogue.map (fun outcome provider => (heap.settled header ⟨outcome, provider, []⟩).answer)
    (fun outcome provider => (heap.settled header ⟨outcome, provider, []⟩).state)
    fun _ _ _ _ => rfl

theorem recounts_resize (asks : AsksWords α) (blind : Provider.Blind view) {user size total : Nat}
    {old : Header} (hword : total < Word.bound)
    (h : Call.opened heap.memory request = .entering (.resize user old size total)) :
    Recounts ρ (under view) fun setting => (heap.under view setting).serve request := by
  have henter := fun setting => enter_resize (heap.under view setting) user old size total
  cases hdialogue : blockOf user old >>= (Allocator.resize · total heap.allocator heap.memory) with
  | error fault =>
    exact heap.recounts_failed h fun setting =>
      (henter setting).trans (congrArg (· >>= _) hdialogue)
  | ok dialogue =>
    obtain ⟨block, -, hresize⟩ := bind_eq_ok.mp hdialogue
    exact heap.recounts_placed blind (asks.resize hword hresize) ⟨size, old.align⟩ h fun setting =>
      (henter setting).trans (congrArg (· >>= _) hdialogue)

theorem recounts_release {user : Nat} {header : Header}
    (h : Call.opened heap.memory request = .entering (.release user header)) :
    Recounts ρ (under view) fun setting => (heap.under view setting).serve request := by
  have henter := fun setting => enter_release (heap.under view setting) user header
  cases hreleased :
      blockOf user header >>= (Allocator.release · heap.allocator heap.memory) with
  | error fault =>
    exact heap.recounts_failed h fun setting =>
      (henter setting).trans (congrArg (· >>= _) hreleased)
  | ok released =>
    obtain ⟨block, hblock, hrelease⟩ := bind_eq_ok.mp hreleased
    let after : Framed α ρ := { heap with allocator := released.1, memory := released.2 }
    have hserve : ∀ setting, (heap.under view setting).serve request =
        .ok ⟨none, after.under view setting, []⟩ :=
      fun setting => serve_of_release h hblock hrelease
    simp only [hserve]
    exact .silent none after

/-- A request to a heap is the same tale under every setting, in any state. -/
theorem recounts_serve (asks : AsksWords α) (blind : Provider.Blind view) (request : Request) :
    Recounts ρ (under view) fun setting => (heap.under view setting).serve request := by
  rcases Call.opened_cases heap.memory request with hopened | ⟨critical, hopened, hword⟩
  · have hserve : ∀ setting, (heap.under view setting).serve request =
        .ok ⟨none, heap.under view setting, []⟩ := fun setting => serve_of_answered hopened
    simp only [hserve]
    exact .silent none heap
  · cases critical with
    | acquire cleared header total =>
      exact heap.recounts_placed blind
        (asks.acquire cleared _ heap.allocator heap.memory hword) header hopened fun _ => rfl
    | resize user old size total => exact heap.recounts_resize asks blind hword hopened
    | release user header => exact heap.recounts_release hopened

end serve

end Framed

section runs

open Script (Action Answer Played Table)
open Sized (Allocator AsksWords)

variable {α ρ : Type} [Allocator α] [Provider ρ] {view : Setting → ρ → ρ}

/-- The client with its heap under a setting. -/
def Client.under (view : Setting → ρ → ρ) (setting : Setting) (client : Client (Framed α ρ)) :
    Client (Framed α ρ) :=
  { client with heap := client.heap.under view setting }

theorem Client.recounts_serve (asks : AsksWords α) (blind : Provider.Blind view)
    (client : Client (Framed α ρ)) (request : Request) :
    Recounts ρ (Client.under view) fun setting => (client.under view setting).serve request :=
  .after_first (Checked.require (∀ block ∈ request.subject?, client.held.contains block) .deadBlock)
    fun _ => (client.heap.recounts_serve asks blind request).map (fun answer _ => answer)
      (fun answer heap => ⟨heap, recordAfter client.held request answer⟩) fun _ _ _ _ => rfl

theorem Client.update_under (client : Client (Framed α ρ)) (block offset len : Nat)
    (f : Nat → UInt8) (setting : Setting) :
    (client.under view setting).update block offset len f =
      (client.update block offset len f).map (Client.under view setting) := by
  have hrequire : Checked.require ((client.under view setting).covers block offset len)
      .strayAccess = Checked.require (client.covers block offset len) .strayAccess := rfl
  rw [update, update, hrequire]
  cases Checked.require (client.covers block offset len) .strayAccess <;> rfl

namespace Script.Table

/-- The same table, with its heap under a setting. -/
def under (view : Setting → ρ → ρ) (setting : Setting) (table : Table (Framed α ρ)) :
    Table (Framed α ρ) :=
  { table with client := table.client.under view setting }

variable (table : Table (Framed α ρ))

theorem recounts_serve (asks : AsksWords α) (blind : Provider.Blind view) (slot : Nat)
    (request : Request) :
    Recounts ρ (under view) fun setting => (table.under view setting).serve slot request :=
  (Client.recounts_serve asks blind table.client request).map
    (fun answer _ => (settled request (table.slots slot) answer).1)
    (fun answer client => ⟨client, Function.update table.slots slot
      (settled request (table.slots slot) answer).2⟩)
    fun _ _ _ _ => rfl

omit [Allocator α] in
theorem recounts_skipped : Recounts ρ (under view) fun setting =>
    (.ok ⟨.skipped, table.under view setting, []⟩ :
      Checked (Reply (Answer Nat (List UInt8)) (Table (Framed α ρ)))) :=
  .silent (Answer.skipped : Answer Nat (List UInt8)) table

omit [Allocator α] in
theorem recounts_access (slot offset len : Nat)
    (use : Nat → Client (Framed α ρ) → Checked (Answer Nat (List UInt8) × Client (Framed α ρ)))
    (huse : ∀ block setting, use block (table.client.under view setting) =
      (use block table.client).map fun used => (used.1, used.2.under view setting)) :
    Recounts ρ (under view) fun setting => (table.under view setting).access slot offset len
      (use · (table.client.under view setting)) := by
  have hslots : ∀ setting, (table.under view setting).slots = table.slots := fun _ => rfl
  have hcovers : ∀ setting block, (table.under view setting).client.covers block offset len =
      table.client.covers block offset len := fun _ _ => rfl
  simp only [access, hslots, hcovers, huse]
  cases table.slots slot with
  | none => exact recounts_skipped table
  | some block =>
    dsimp only
    split
    · cases use block table.client with
      | error fault => exact .fails fault
      | ok used => exact .silent used.1 (⟨used.2, table.slots⟩ : Table (Framed α ρ))
    · exact recounts_skipped table

theorem recounts_step (asks : AsksWords α) (blind : Provider.Blind view) (action : Action) :
    Recounts ρ (under view) fun setting => (table.under view setting).step action := by
  -- What is asked of the heap is decided by the slots, which no setting touches.
  have hrequest : ∀ setting, (table.under view setting).request? action = table.request? action :=
    fun _ => by cases action <;> rfl
  have hserved : ∀ slot, (∀ setting, (table.under view setting).step action =
      (table.request? action).elim (.ok ⟨.skipped, table.under view setting, []⟩)
        ((table.under view setting).serve slot)) →
      Recounts ρ (under view) fun setting => (table.under view setting).step action := by
    intro slot hstep
    simp only [hstep]
    cases table.request? action with
    | none => exact recounts_skipped table
    | some request => exact recounts_serve table asks blind slot request
  cases action with
  | obtain slot request =>
    refine hserved slot fun setting => ?_
    rw [step, hrequest]
    cases table.request? (.obtain slot request) <;> rfl
  | resize slot size => exact hserved slot fun _ => rfl
  | release slot => exact hserved slot fun _ => rfl
  | write slot offset bytes =>
    refine recounts_access table slot offset bytes.length (fun block client => do
      let client ← client.update block offset bytes.length fun address =>
        bytes.getD (address - (block + offset)) 0
      return (.wrote, client)) fun block setting => ?_
    rw [Client.update_under]
    cases table.client.update block offset bytes.length _ <;> rfl
  | read slot offset len =>
    refine recounts_access table slot offset len (fun block client => do
      return (.bytes (← client.read block offset len), client)) fun block setting => ?_
    have hread : (table.client.under view setting).read block offset len =
        table.client.read block offset len := rfl
    rw [hread]
    cases table.client.read block offset len <;> rfl

theorem recounts_run (asks : AsksWords α) (blind : Provider.Blind view) (actions : List Action) :
    Recounts ρ (under view) fun setting => (table.under view setting).run actions := by
  induction actions generalizing table with
  | nil => exact .silent [] table
  | cons action rest ih =>
    exact (recounts_step table asks blind action).append List.cons fun _ table => ih table

end Script.Table

end runs

section retelling

open Script (Action Played Table)
open Sized (Allocator AsksWords TopSpace)

variable {α ρ : Type} [Allocator α] [Provider ρ]

/-- The same table in a session, with its provider changed. -/
def Script.Table.inside (session : Session) (change : ρ → ρ) (table : Table (Framed α ρ)) :
    Table (Framed α ρ) :=
  ⟨⟨{ table.client.heap with
      level := session.ensureReady.level
      provider := change table.client.heap.provider }, table.client.held⟩, table.slots⟩

/-- The runs of a script under all settings differ in what is written, and in nothing else. -/
structure Retold (view : Setting → ρ → ρ) (run : Setting → Checked (Played (Framed α ρ))) :
    Prop where
  fails : ∀ {setting other fault}, run setting = .error fault → run other = .error fault
  /-- The states are the same but for the level, and for what the provider shows of the setting. -/
  same : ∀ {setting other played next}, run setting = .ok played → run other = .ok next →
    next.answer = played.answer ∧ next.state = played.state.under view other ∧
      unwritten next.events = unwritten played.events
  /-- What is written stands between the events that no setting leaves out. -/
  story : ∃ story, (∀ {setting played}, run setting = .ok played →
      played.events = story.flatMap (Report.told (.ofSetting setting))) ∧
    (∀ event, .seen event ∈ story → Caused ρ event) ∧ linesOf .off story = [] ∧
    linesOf .rejections story = (linesOf .all story).filter isRejection
  silent : Provider.Quiet ρ → ∀ {setting played}, Level.ofSetting setting = .off →
    run setting = .ok played → Event.traceText played.events = []
  rejections : Provider.Quiet ρ → ∀ {setting other played next},
    Level.ofSetting setting = .rejections → Level.ofSetting other = .all →
    run setting = .ok played → run other = .ok next →
    linesIn played.events = (linesIn next.events).filter isRejection ∧
      Event.traceText played.events = ((linesIn next.events).filter isRejection).flatten

omit [Allocator α] in
theorem Growth.Recounts.retold {view : Setting → ρ → ρ}
    {run : Setting → Checked (Played (Framed α ρ))} (blind : Provider.Blind view)
    (h : Recounts ρ (Table.under view) run) : Retold view run := by
  obtain ⟨outcome, hrun⟩ := h
  cases outcome with
  | error fault =>
    have hnever : ∀ {setting played}, run setting ≠ .ok played := fun h =>
      nomatch (hrun _).symm.trans h
    constructor
    case fails =>
      intro setting other failed h
      obtain rfl : fault = failed := Except.error.inj ((hrun setting).symm.trans h)
      exact hrun other
    case same => exact fun h => absurd h hnever
    case story => exact ⟨[], fun h => absurd h hnever, nofun, rfl, rfl⟩
    case silent => exact fun _ _ _ _ h => absurd h hnever
    case rejections => exact fun _ _ _ _ _ _ _ h => absurd h hnever
  | ok tale =>
    have htold : ∀ {setting played}, run setting = .ok played →
        played = tale.told (Table.under view) setting := fun h =>
      Except.ok.inj (h.symm.trans (hrun _))
    have hlines : Provider.Quiet ρ → ∀ {setting played}, run setting = .ok played →
        linesIn played.events = linesOf (.ofSetting setting) tale.story := by
      intro quiet setting played h
      rw [htold h]
      exact linesIn_told quiet tale.caused _
    constructor
    case fails => exact fun h => nomatch (hrun _).symm.trans h
    case same =>
      intro setting other played next h h'
      rw [htold h, htold h']
      refine ⟨rfl, ?_, unwritten_told ..⟩
      simp [Tale.told, Table.under, Client.under, Framed.under, blind.again]
    case story =>
      exact ⟨tale.story, fun h => congrArg Reply.events (htold h), tale.caused, linesOf_off _,
        linesOf_rejections _⟩
    case silent =>
      intro quiet setting played hoff h
      rw [traceText_eq, hlines quiet h, hoff, linesOf_off]
      rfl
    case rejections =>
      intro quiet setting other played next hlow hhigh h h'
      have hfiltered : linesIn played.events = (linesIn next.events).filter isRejection := by
        rw [hlines quiet h, hlines quiet h', hlow, hhigh, linesOf_rejections]
      exact ⟨hfiltered, by rw [traceText_eq, hfiltered]⟩

/-- Whatever the state, the provider and the script, a setting changes nothing of a run but
what is written: nothing at the lowest level, the rejections at the next one, and the
grants as well at the highest. Over a break the provider may belong to the same session. -/
theorem tracing_of_run (asks : AsksWords α) (session : Session) (actions : List Action) :
    (∀ {ρ : Type} [Provider ρ] (start : Table (Framed α ρ)), Retold (fun _ => id) fun setting =>
      (start.inside (session.reading setting) id).run actions) ∧
    (∀ start : Table (Framed α Break), Retold (Break.reading session) fun setting =>
      (start.inside (session.reading setting) (Break.reading session setting)).run actions) ∧
    Provider.Quiet Break ∧ ∀ {μ : Type} [Growth.PageStore μ], Provider.Quiet (Growth.Linear μ) := by
  have hinside : ∀ {ρ : Type} [Provider ρ] (view : Setting → ρ → ρ) (start : Table (Framed α ρ))
      (setting : Setting), start.inside (session.reading setting) (view setting) =
        start.under view setting := by
    intro ρ _ view start setting
    rw [Table.inside, session.level_reading]
    rfl
  refine ⟨fun start => ?_, fun start => ?_, Break.quiet, Growth.Linear.quiet⟩
  · have hrecounts := start.recounts_run asks .of_hidden actions
    simp only [← hinside] at hrecounts
    exact hrecounts.retold .of_hidden
  · have hrecounts := start.recounts_run asks (Break.blind session) actions
    simp only [← hinside] at hrecounts
    exact hrecounts.retold (Break.blind session)

/-- A new process obtains a block under a setting and is refused another one. -/
def refusedRun (setting : Setting) : Checked (Played (Framed TopSpace Break)) :=
  ((Table.blank Framed.onBreak).inside
    (Session.reading { setting := none, reported := 4096 } setting) id).run
      [.obtain 0 (.allocate 100), .obtain 1 (.allocate (1 <<< 47))]

/-- The highest setting leaves two lines, and the one below it leaves the second of them. -/
theorem tracing_of_run_refused : ∃ low high,
    refusedRun (some (Trace.bytesOf "1")) = .ok low ∧
    refusedRun (some (Trace.bytesOf "2")) = .ok high ∧ high.answer = low.answer ∧
    linesIn high.events = [Trace.grantLine 65536, Trace.rejectionLine ((1 <<< 47) + 65536)] ∧
    linesIn low.events = [Trace.rejectionLine ((1 <<< 47) + 65536)] := by
  have hcomputed : (do
      let low ← refusedRun (some (Trace.bytesOf "1"))
      let high ← refusedRun (some (Trace.bytesOf "2"))
      return linesIn high.events : Checked _) =
      .ok [Trace.grantLine 65536, Trace.rejectionLine ((1 <<< 47) + 65536)] := by decide +kernel
  obtain ⟨low, hlow, hcomputed⟩ := bind_eq_ok.mp hcomputed
  obtain ⟨high, hhigh, hcomputed⟩ := bind_eq_ok.mp hcomputed
  have hlines := Except.ok.inj hcomputed
  obtain ⟨retold, -, quiet, -⟩ := tracing_of_run TopSpace.asks_words
    { setting := none, reported := 4096 }
    [.obtain 0 (.allocate 100), .obtain 1 (.allocate (1 <<< 47))]
  have retold : Retold (fun _ => id) refusedRun := retold (Table.blank Framed.onBreak)
  obtain ⟨hrejections, -⟩ := retold.rejections quiet (by decide) (by decide) hlow hhigh
  rw [hlines] at hrejections
  exact ⟨low, high, hlow, hhigh, (retold.same hlow hhigh).1, hlines,
    hrejections.trans (by decide +kernel)⟩

end retelling

end RegionHeap
