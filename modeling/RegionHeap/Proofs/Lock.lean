import RegionHeap.Lock
import RegionHeap.Proofs.Record

/-!
# What a move can change

A move is one atomic operation of one thread, and what it does depends only on
the phase of that thread and on the word that it finds. The cases are listed once,
each with the system that it leads to, so that whatever is said of all systems
that can be reached is a matter of going through the list. The word changes only
when the lock is taken, contended or given back, and the value only when a
section is finished.
-/
namespace RegionHeap.Lock.System

variable {τ : Type} {n : Nat}

inductive Change (s : System τ n) (thread : Fin n) : System τ n → Prop
  /-- The first try finds the lock free. -/
  | acquired : s.phases.get thread = .outside → s.word = .unlocked →
      Change s thread ({ s with word := .locked }.withPhase thread .entered)
  /-- The first try finds the lock taken. -/
  | failed : s.phases.get thread = .outside → s.word ≠ .unlocked →
      Change s thread (s.withPhase thread .contending)
  /-- The swap finds the lock free and takes it, although the word says contended then. -/
  | barged : s.phases.get thread = .contending → s.word = .unlocked →
      Change s thread ({ s with word := .contended }.withPhase thread .entered)
  | contended : s.phases.get thread = .contending → s.word ≠ .unlocked →
      Change s thread ({ s with word := .contended }.withPhase thread .waiting)
  | slept : s.phases.get thread = .waiting → s.word = .contended →
      Change s thread (s.withPhase thread .asleep)
  /-- The word is another one by now, so the thread does not fall asleep. -/
  | stayed : s.phases.get thread = .waiting → s.word ≠ .contended →
      Change s thread (s.withPhase thread .contending)
  | loaded : s.phases.get thread = .entered →
      Change s thread (s.withPhase thread (.loaded s.value))
  | stored {read : τ} {change : τ → τ} {rest : List (τ → τ)} :
      s.phases.get thread = .loaded read → s.sections.get thread = change :: rest →
      Change s thread ({ s with
        value := change read
        sections := s.sections.set thread rest thread.isLt }.withPhase thread .leaving)
  /-- There was no section to finish. -/
  | idled {read : τ} : s.phases.get thread = .loaded read →
      Change s thread (s.withPhase thread .leaving)
  | released : s.phases.get thread = .leaving → s.word ≠ .contended →
      Change s thread ({ s with word := .unlocked }.withPhase thread .outside)
  /-- The lock is given back, and a sleeper has to be woken. -/
  | releasedContended : s.phases.get thread = .leaving → s.word = .contended →
      Change s thread ({ s with word := .unlocked }.withPhase thread .waking)
  | woke {sleeper : Fin n} : s.phases.get thread = .waking → s.phases.get sleeper = .asleep →
      Change s thread ((s.withPhase sleeper .contending).withPhase thread .outside)
  | wokeNobody : s.phases.get thread = .waking → (∀ other, s.phases.get other ≠ .asleep) →
      Change s thread (s.withPhase thread .outside)
  /-- The thread was asleep and woke by itself. -/
  | roused : s.phases.get thread = .asleep → Change s thread (s.withPhase thread .contending)

variable {s next : System τ n} {thread other : Fin n} {phase : Phase τ}

theorem phases_withPhase : (s.withPhase thread phase).phases.get other =
    if thread = other then phase else s.phases.get other := Record.get_set

theorem eq_asleep_of_isAsleep (h : phase.isAsleep) : phase = .asleep := by
  cases phase <;> first | rfl | cases h

theorem eq_waking_of_isWaking (h : phase.isWaking) : phase = .waking := by
  cases phase <;> first | rfl | cases h

theorem change_tryLock (h : s.phases.get thread = .outside) :
    Change s thread (s.tryLock thread) := by
  unfold tryLock
  split
  case h_1 hword => exact .acquired h hword
  case h_2 hword => exact .failed h (by simp [hword])
  case h_3 hword => exact .failed h (by simp [hword])

theorem change_swapContended (h : s.phases.get thread = .contending) :
    Change s thread (s.swapContended thread) := by
  unfold swapContended
  split
  case h_1 hword => exact .barged h hword
  case h_2 hword => exact .contended h (by simp [hword])
  case h_3 hword => exact .contended h (by simp [hword])

theorem change_fallAsleep (h : s.phases.get thread = .waiting) :
    Change s thread (s.fallAsleep thread) := by
  unfold fallAsleep
  split
  case h_1 hword => exact .slept h hword
  case h_2 hword => exact .stayed h (by simp [hword])
  case h_3 hword => exact .stayed h (by simp [hword])

theorem change_store {read : τ} (h : s.phases.get thread = .loaded read) :
    Change s thread (s.store thread read) := by
  unfold store
  split
  case h_1 => exact .idled h
  case h_2 hsections => exact .stored h hsections

theorem change_unlock (h : s.phases.get thread = .leaving) :
    Change s thread (s.unlock thread) := by
  unfold unlock
  split
  case h_1 hword => exact .releasedContended h hword
  case h_2 hword => exact .released h (by simp [hword])
  case h_3 hword => exact .released h (by simp [hword])

theorem change_of_advance (h : s.advance thread = some next) : Change s thread next := by
  unfold advance at h
  split at h
  case h_1 houtside =>
    split at h
    · cases h
    · cases h
      exact change_tryLock houtside
  case h_2 hcontending =>
    cases h
    exact change_swapContended hcontending
  case h_3 hwaiting =>
    cases h
    exact change_fallAsleep hwaiting
  case h_4 => cases h
  case h_5 hentered =>
    cases h
    exact .loaded hentered
  case h_6 hloaded =>
    cases h
    exact change_store hloaded
  case h_7 hleaving =>
    cases h
    exact change_unlock hleaving
  case h_8 => cases h

theorem change_of_step {move : Move n} (h : s.step move = some next) :
    ∃ thread, Change s thread next := by
  cases move with
  | advance thread => exact ⟨thread, change_of_advance h⟩
  | wake thread sleeper =>
    cases sleeper with
    | some sleeper =>
      obtain ⟨⟨hwaking, hasleep⟩, hnext⟩ := Option.ite_none_right_eq_some.mp h
      cases hnext
      exact ⟨thread, .woke (eq_waking_of_isWaking hwaking) (eq_asleep_of_isAsleep hasleep)⟩
    | none =>
      obtain ⟨⟨hwaking, hnobody⟩, hnext⟩ := Option.ite_none_right_eq_some.mp h
      cases hnext
      refine ⟨thread, .wokeNobody (eq_waking_of_isWaking hwaking) ?_⟩
      intro other hasleep
      exact hnobody other (by rw [hasleep]; rfl)
  | rouse sleeper =>
    obtain ⟨hasleep, hnext⟩ := Option.ite_none_right_eq_some.mp h
    cases hnext
    exact ⟨sleeper, .roused (eq_asleep_of_isAsleep hasleep)⟩

/-- What holds at the start and is kept by every change holds of all that can be reached. -/
theorem Reaches.invariant {start : System τ n} (h : start.Reaches s) (Inv : System τ n → Prop)
    (hstart : Inv start) (hchange : ∀ {s next thread}, Inv s → Change s thread next → Inv next) :
    Inv s := by
  induction h with
  | start => exact hstart
  | step move _ hstep ih =>
    obtain ⟨thread, hmove⟩ := change_of_step hstep
    exact hchange ih hmove

theorem Reaches.run {start : System τ n} {moves : List (Move n)} (h : start.Reaches s)
    (hrun : s.run moves = some next) : start.Reaches next := by
  induction moves generalizing s with
  | nil =>
    cases hrun
    exact h
  | cons move moves ih =>
    obtain ⟨middle, hstep, hrest⟩ := Option.bind_eq_some_iff.mp hrun
    exact ih (h.step move hstep) hrest

end RegionHeap.Lock.System
