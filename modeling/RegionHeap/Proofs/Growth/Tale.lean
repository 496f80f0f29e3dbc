import RegionHeap.Proofs.Session
import RegionHeap.Proofs.Sized.Dialogue

/-!
# Tales of growth

A source reports what it has obtained and what it was refused, and the trace
setting says which of the reports are written. So there is a tale that is the same
for all settings: the answer, what becomes of the provider, and what happens and is
reported on the way. A run is its tale as it is told under its setting. The tale
is made in the source, which alone reads the level, and whatever is done with a
source only passes it on. What is written at a level is then read off the tale.
-/
namespace RegionHeap

open Checked

namespace Growth

open Trace (Level)

abbrev Setting := Option (List UInt8)

/-- Something that happens under every setting, or a report that some settings leave out. -/
inductive Report where
  | seen (event : Event)
  | rejected (bytes : Nat)
  | granted (bytes : Nat)
deriving Repr, DecidableEq

namespace Report

/-- The line of a report, if the level asks for it. -/
def line? (level : Level) : Report → Option (List UInt8)
  | seen _ => none
  | rejected bytes =>
    if level.rank < Level.rejections.rank then none else some (Trace.rejectionLine bytes)
  | granted bytes =>
    if level.rank < Level.all.rank then none else some (Trace.grantLine bytes)

def told (level : Level) : Report → List Event
  | seen event => [event]
  | report => Source.traceEvents (report.line? level)

end Report

/-- Whether the line is one about a refusal. -/
def isRejection (line : List UInt8) : Bool :=
  (Trace.bytesOf "heapfacade: growth of ").isPrefixOf line

inductive Caused (ρ : Type) [Provider ρ] : Event → Prop
  | asked (delta : Int) (base : Option Nat) : Caused ρ (.growthAsked delta base)
  | grown {provider : ρ} {delta : Int} {reply : Reply (Option Nat) ρ} {event : Event} :
      Provider.grow delta provider = .ok reply → event ∈ reply.events → Caused ρ event

/-- What a run comes to, with everything that could be said about it. -/
structure Tale (ρ : Type) [Provider ρ] (β σ : Type) where
  answer : β
  state : σ
  story : List Report
  caused : ∀ event, Report.seen event ∈ story → Caused ρ event

namespace Tale

variable {ρ : Type} [Provider ρ] {β σ : Type}

/-- The reply under a setting, which may be seen in the state too. -/
def told (view : Setting → σ → σ) (setting : Setting) (tale : Tale ρ β σ) : Reply β σ :=
  ⟨tale.answer, view setting tale.state, tale.story.flatMap (Report.told (.ofSetting setting))⟩

end Tale

/-- Under every setting the run is the same tale. -/
def Recounts (ρ : Type) [Provider ρ] {β σ : Type} (view : Setting → σ → σ)
    (run : Setting → Checked (Reply β σ)) : Prop :=
  ∃ outcome : Checked (Tale ρ β σ), ∀ setting, run setting = outcome.map (Tale.told view setting)

namespace Recounts

variable {ρ : Type} [Provider ρ] {β γ δ σ τ : Type} {view : Setting → σ → σ}
  {after : Setting → τ → τ} {run : Setting → Checked (Reply β σ)}

theorem fails (fault : Fault) : Recounts ρ view fun _ => (.error fault : Checked (Reply β σ)) :=
  ⟨.error fault, fun _ => rfl⟩

theorem silent (answer : β) (state : σ) :
    Recounts ρ view fun setting => .ok ⟨answer, view setting state, []⟩ :=
  ⟨.ok ⟨answer, state, [], nofun⟩, fun _ => rfl⟩

theorem after_first {next : Setting → γ → Checked (Reply β σ)} (first : Checked γ)
    (hnext : ∀ c, Recounts ρ view fun setting => next setting c) :
    Recounts ρ view fun setting => first >>= next setting := by
  cases first with
  | error fault => exact fails fault
  | ok c => exact hnext c

theorem bind {next : Setting → Reply β σ → Checked (Reply γ τ)} (h : Recounts ρ view run)
    (hnext : ∀ tale : Tale ρ β σ, Recounts ρ after fun setting =>
      next setting (tale.told view setting)) :
    Recounts ρ after fun setting => run setting >>= next setting := by
  obtain ⟨outcome, hrun⟩ := h
  cases outcome with
  | error fault => exact ⟨.error fault, fun setting => congrArg (· >>= next setting) (hrun setting)⟩
  | ok tale =>
    obtain ⟨outcome, hafter⟩ := hnext tale
    exact ⟨outcome, fun setting =>
      (congrArg (· >>= next setting) (hrun setting)).trans (hafter setting)⟩

theorem append {next : Setting → β → σ → Checked (Reply γ τ)} (f : β → γ → δ)
    (h : Recounts ρ view run)
    (hnext : ∀ answer state, Recounts ρ after fun setting =>
      next setting answer (view setting state)) :
    Recounts ρ after fun setting => do
      let reply ← run setting
      let rest ← next setting reply.answer reply.state
      return ⟨f reply.answer rest.answer, rest.state, reply.events ++ rest.events⟩ :=
  h.bind fun tale => (hnext tale.answer tale.state).bind fun rest =>
    ⟨.ok ⟨f tale.answer rest.answer, rest.state, tale.story ++ rest.story, fun event hevent =>
      (List.mem_append.mp hevent).elim (tale.caused event) (rest.caused event)⟩,
      fun setting => by simp [Tale.told, Except.map]⟩

theorem map (f : β → σ → γ) (g : β → σ → τ) {h' : Setting → Reply β σ → Reply γ τ}
    (h : Recounts ρ view run)
    (hreply : ∀ setting answer state events, h' setting ⟨answer, view setting state, events⟩ =
      ⟨f answer state, after setting (g answer state), events⟩) :
    Recounts ρ after fun setting => do
      let reply ← run setting
      return h' setting reply :=
  h.bind fun tale => ⟨.ok ⟨f tale.answer tale.state, g tale.answer tale.state, tale.story,
    tale.caused⟩, fun _ => congrArg Except.ok (hreply ..)⟩

end Recounts

/-- The provider shows the setting, but does not go by it. -/
structure Provider.Blind {ρ : Type} [Provider ρ] (view : Setting → ρ → ρ) : Prop where
  again : ∀ (setting other : Setting) (provider : ρ),
    view other (view setting provider) = view other provider
  unit : ∀ (setting other : Setting) (provider : ρ),
    Provider.pageSize (view setting provider) = Provider.pageSize (view other provider)
  grow : ∀ (delta : Int) (provider : ρ), ∃ outcome : Checked (Reply (Option Nat) ρ),
    ∀ setting, Provider.grow delta (view setting provider) =
      outcome.map fun reply => { reply with state := view setting reply.state }

section source

variable {ρ : Type} [Provider ρ] {view : Setting → ρ → ρ} {bytes size : Nat}

theorem Provider.Blind.of_hidden : Provider.Blind fun _ => (id : ρ → ρ) where
  again _ _ _ := rfl
  unit _ _ _ := rfl
  grow delta provider := by
    refine ⟨Provider.grow delta provider, fun _ => ?_⟩
    rw [id_eq]
    cases Provider.grow delta provider <;> rfl

theorem Provider.Blind.recounts (blind : Provider.Blind view) (delta : Int) (provider : ρ) :
    Recounts ρ view fun setting => Provider.grow delta (view setting provider) := by
  obtain ⟨outcome, hgrow⟩ := blind.grow delta provider
  cases outcome with
  | error fault => exact ⟨.error fault, hgrow⟩
  | ok reply =>
    have hcaused : ∀ event, .seen event ∈ reply.events.map Report.seen → Caused ρ event := by
      intro event hevent
      obtain ⟨other, hother, heq⟩ := List.mem_map.mp hevent
      obtain rfl := Report.seen.inj heq
      exact .grown (hgrow none) hother
    refine ⟨.ok ⟨reply.answer, reply.state, _, hcaused⟩, fun setting => (hgrow setting).trans ?_⟩
    have hevents : (reply.events.map Report.seen).flatMap (Report.told (.ofSetting setting)) =
        reply.events := by simp [List.flatMap_map, Report.told]
    simp only [Except.map, Tale.told, hevents]

namespace Source

/-- The source asks once and reports how it went. -/
theorem recounts_ask (blind : Provider.Blind view) (hword : bytes < Word.bound) (provider : ρ) :
    Recounts ρ view fun setting => ask (.ofSetting setting) bytes (view setting provider) := by
  refine (blind.recounts (Word.signed bytes) provider).bind fun tale => ?_
  have hcaused : ∀ report, (∀ event, report ≠ Report.seen event) → ∀ event, .seen event ∈
      .seen (.growthAsked (Word.signed bytes) tale.answer) :: tale.story ++ [report] →
      Caused ρ event := by
    intro report hreport event hevent
    simp only [List.cons_append, List.mem_cons, List.mem_append, Report.seen.injEq,
      List.not_mem_nil, or_false] at hevent
    rcases hevent with rfl | hseen | hlast
    · exact .asked ..
    · exact tale.caused event hseen
    · exact absurd hlast.symm (hreport event)
  cases hanswer : tale.answer with
  | none =>
    refine ⟨.ok ⟨none, tale.state, _, hcaused (.rejected bytes) nofun⟩, fun setting => ?_⟩
    simp only [Tale.told, hanswer, Trace.rejection_eq _ hword, ok_bind, pure_eq_ok, Except.map]
    simp [Report.told, Report.line?]
  | some base =>
    refine ⟨.ok ⟨some ⟨base, bytes⟩, tale.state, _, hcaused (.granted bytes) nofun⟩,
      fun setting => ?_⟩
    simp only [Tale.told, hanswer, Trace.grant_eq _ hword, ok_bind, pure_eq_ok, Except.map]
    simp [Report.told, Report.line?]

theorem recounts_obtain (blind : Provider.Blind view) (hword : size < Word.bound) (provider : ρ) :
    Recounts ρ view fun setting => obtain (.ofSetting setting) size (view setting provider) := by
  have hunit : ∀ setting, Word.roundUp size (Provider.pageSize (view setting provider)) =
      Word.roundUp size (Provider.pageSize (view none provider)) := fun setting => by
    rw [blind.unit setting none]
  unfold obtain
  simp only [hunit]
  cases Word.roundUp size (Provider.pageSize (view none provider)) with
  | error fault => exact .fails fault
  | ok rounded =>
    simp only [ok_bind]
    cases hbytes : rounded.filter (· ≤ Word.signedMax) with
    | some bytes =>
      have hsigned := of_decide_eq_true (Option.filter_eq_some_iff.mp hbytes).2
      exact recounts_ask blind (Nat.lt_of_le_of_lt hsigned (by decide)) provider
    | none =>
      refine ⟨.ok ⟨none, provider, [.rejected size], by simp⟩, fun setting => ?_⟩
      simp [Trace.rejection_eq _ hword, Tale.told, Except.map, Report.told, Report.line?]

end Source

end source

section written

variable {ρ : Type} [Provider ρ]

/-- The provider writes nothing by itself. -/
def Provider.Quiet (ρ : Type) [Provider ρ] : Prop :=
  ∀ {provider : ρ} {delta : Int} {reply}, Provider.grow delta provider = .ok reply →
    linesIn reply.events = []

/-- Everything that happened but for the lines that were written. -/
def unwritten (events : List Event) : List Event :=
  events.filter fun
    | .traced _ => false
    | _ => true

/-- The lines that a source writes at a level. -/
def linesOf (level : Level) (story : List Report) : List (List UInt8) :=
  story.filterMap (Report.line? level)

variable {story : List Report}

theorem isRejection_rejectionLine (bytes : Nat) : isRejection (Trace.rejectionLine bytes) := by
  rw [isRejection, Trace.rejectionLine, List.append_assoc, List.isPrefixOf_iff_prefix]
  exact List.prefix_append ..

theorem not_isRejection_grantLine (bytes : Nat) :
    isRejection (Trace.grantLine bytes) = false := by
  rw [Trace.grantLine, List.append_assoc]
  rfl

theorem linesOf_off (story : List Report) : linesOf .off story = [] := by
  refine List.filterMap_eq_nil_iff.mpr fun report _ => ?_
  cases report <;> rfl

theorem linesOf_rejections (story : List Report) :
    linesOf .rejections story = (linesOf .all story).filter isRejection := by
  rw [linesOf, linesOf, List.filter_filterMap]
  refine congrArg (List.filterMap · story) (funext fun report => ?_)
  cases report with
  | seen event => rfl
  | rejected bytes => exact (Option.filter_some_pos (isRejection_rejectionLine bytes)).symm
  | granted bytes =>
    exact (Option.filter_some_neg (by simp [not_isRejection_grantLine])).symm

theorem unwritten_told (level other : Level) (story : List Report) :
    unwritten (story.flatMap (Report.told level)) =
      unwritten (story.flatMap (Report.told other)) := by
  have hreport : ∀ report, unwritten (Report.told level report) =
      unwritten (Report.told other report) := by
    have hline : ∀ line, unwritten (Source.traceEvents line) = [] := by
      intro line
      cases line <;> rfl
    intro report
    cases report with
    | seen event => rfl
    | rejected bytes => exact (hline _).trans (hline _).symm
    | granted bytes => exact (hline _).trans (hline _).symm
  simp only [unwritten, List.filter_flatMap] at hreport ⊢
  simp only [hreport]

/-- If the provider is quiet, the source writes everything that is written. -/
theorem linesIn_told (quiet : Provider.Quiet ρ)
    (hcaused : ∀ event, .seen event ∈ story → Caused ρ event) (level : Level) :
    linesIn (story.flatMap (Report.told level)) = linesOf level story := by
  have hline : ∀ line, linesIn (Source.traceEvents line) = line.toList := by
    intro line
    cases line <;> rfl
  have hreport : ∀ report ∈ story, linesIn (Report.told level report) =
      (Report.line? level report).toList := by
    intro report hmem
    cases report with
    | rejected bytes => exact hline _
    | granted bytes => exact hline _
    | seen event =>
      -- Only here could there be a line that is not the source's own.
      cases hcaused event hmem with
      | asked delta base => rfl
      | grown hgrow hevent =>
        refine List.filterMap_eq_nil_iff.mpr fun other hother => ?_
        obtain rfl := List.mem_singleton.mp hother
        exact List.filterMap_eq_nil_iff.mp (quiet hgrow) other hevent
  induction story with
  | nil => rfl
  | cons report rest ih =>
    rw [List.flatMap_cons, linesIn_append, hreport report List.mem_cons_self,
      ih (fun event hevent => hcaused event (List.mem_cons_of_mem _ hevent))
        fun other hother => hreport other (List.mem_cons_of_mem _ hother), linesOf, linesOf,
      List.filterMap_cons]
    cases Report.line? level report <;> rfl

theorem traceText_eq (events : List Event) : Event.traceText events = (linesIn events).flatten := by
  induction events with
  | nil => rfl
  | cons event rest ih =>
    rw [Event.traceText, List.flatMap_cons]
    cases event with
    | traced line => exact congrArg (line ++ ·) ih
    | _ => exact ih

end written

end Growth

open Growth (Provider Recounts Setting)

/-- Whatever a dialogue asks, it is the same dialogue under every setting. -/
theorem Sized.Dialogue.recounts {α ρ : Type} [Provider ρ] {view : Setting → ρ → ρ}
    {dialogue : Sized.Dialogue α} (blind : Provider.Blind view)
    (h : dialogue.Asks (· < Word.bound)) (provider : ρ) :
    Recounts ρ view fun setting => dialogue.run (.ofSetting setting) (view setting provider) := by
  induction dialogue generalizing provider with
  | done result => exact .silent result provider
  | ask bytes next ih =>
    exact (Growth.Source.recounts_obtain blind h.1 provider).append (fun _ result => result)
      fun answer state => ih answer (h.2 answer) state

/-- The session after the setting has got this value and was read. -/
def Session.reading (session : Session) (setting : Setting) : Session :=
  (session.withSetting setting).readSetting

/-- A session that has read a setting goes by it, whether it has been started or not. -/
theorem Session.level_reading (session : Session) (setting : Setting) :
    (session.reading setting).ensureReady.level = .ofSetting setting := by
  unfold ensureReady start
  split
  · rfl
  · split <;> rfl

theorem Session.pageSize_reading (session : Session) (setting other : Setting) :
    (session.reading setting).ensureReady.pageSize =
      (session.reading other).ensureReady.pageSize := by
  have hpageSize : ∀ setting, (session.reading setting).ensureReady.pageSize =
      session.ensureReady.pageSize := by
    intro setting
    obtain ⟨_, reported, level, pageSize, phase⟩ := session
    cases phase <;> rfl
  rw [hpageSize, hpageSize]

namespace Growth

namespace Break

/-- The break of a process whose session has read the setting. -/
def reading (session : Session) (setting : Setting) (process : Break) : Break :=
  { process with session := session.reading setting }

theorem advance_reading (session : Session) (setting : Setting) (delta : Nat) (process : Break) :
    (process.reading session setting).advance delta =
      ((process.advance delta).1, (process.advance delta).2.reading session setting) := by
  change (if delta < 1 <<< 47 ∧ process.top + delta < Word.max then _ else _) = _
  unfold advance
  split <;> rfl

theorem blind (session : Session) : Provider.Blind (reading session) where
  again _ _ _ := rfl
  unit setting other _ := session.pageSize_reading setting other
  grow delta process := by
    refine ⟨grow delta process, fun setting => ?_⟩
    change grow delta (process.reading session setting) = _
    unfold grow
    split
    · rfl
    · rw [advance_reading]
      rfl

theorem quiet : Provider.Quiet Break := by
  intro process delta reply h
  change grow delta process = .ok reply at h
  unfold grow at h
  split at h <;> exact congrArg (linesIn ∘ Reply.events) (Except.ok.inj h).symm

end Break

theorem Linear.quiet {μ : Type} [PageStore μ] : Provider.Quiet (Linear μ) := by
  intro region delta reply h
  change Linear.grow delta region = .ok reply at h
  unfold Linear.grow at h
  split at h
  · obtain rfl := Except.ok.inj h
    rfl
  · split at h
    · obtain rfl := Except.ok.inj h
      rfl
    · obtain ⟨rounded, -, h⟩ := bind_eq_ok.mp h
      cases rounded with
      | none =>
        obtain rfl := Except.ok.inj h
        rfl
      | some bytes =>
        obtain rfl := Except.ok.inj h
        unfold growPages notices
        dsimp only
        split
        · cases region.observer <;> rfl
        · rfl

end Growth

end RegionHeap
