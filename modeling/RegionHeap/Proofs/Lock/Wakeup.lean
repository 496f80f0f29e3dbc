import RegionHeap.Proofs.Lock.Exclusion

/-!
# No wake-up is lost

A thread falls asleep only while the word is contended, and then whoever gives the
lock back has to wake somebody. Until that has happened the word may be overwritten
by a thread that takes the free lock at once and gives it back without a wake. What
remains of the duty is then with the thread that has not woken anybody yet, or with
the one that it has woken, which contends the word again. That one of the three is
the case as long as somebody sleeps is kept by every change. Hence nobody sleeps
beside a free lock unless somebody else is about to look after it, and a system in
which nothing can happen any more has finished all its sections.
-/
namespace RegionHeap.Lock.System

variable {τ : Type} {n : Nat} {s next : System τ n} {thread : Fin n} {phase : Phase τ}

/-- The word is contended, or a thread is about to wake somebody or to contend the word. -/
def Alert (s : System τ n) : Prop :=
  s.word = .contended ∨ (∃ thread, s.phases.get thread = .waking) ∨
    ∃ thread, s.phases.get thread = .contending

/-- Nobody sleeps unless the system is alert. -/
def Wakeful (s : System τ n) : Prop :=
  ∀ sleeper, s.phases.get sleeper = .asleep → s.Alert

namespace Wakeful

theorem initial (value : τ) (sections : Vector (List (τ → τ)) n) :
    Wakeful (.initial value sections) := by
  intro sleeper hasleep
  have houtside : (System.initial value sections).phases.get sleeper = .outside :=
    Record.get_replicate _
  cases houtside.symm.trans hasleep

theorem of_alert (h : s.Alert) : Wakeful s := fun _ _ => h

/-- A thread goes on that was not about to wake anybody or to contend the word, and does
not take a contended word away. -/
theorem pass (h : Wakeful s)
    (hphases : next.phases = s.phases.set thread phase thread.isLt) (hawake : phase ≠ .asleep)
    (hwaking : s.phases.get thread ≠ .waking)
    (hcontending : s.phases.get thread ≠ .contending)
    (hword : s.word = .contended → next.word = .contended) : Wakeful next := by
  -- Whoever else has such a duty still has it.
  have hkeeps : ∀ {other} {duty : Phase τ}, s.phases.get thread ≠ duty →
      s.phases.get other = duty → next.phases.get other = duty := by
    intro other duty hne hother
    rw [hphases, Record.get_set, if_neg, hother]
    intro heq
    subst heq
    exact hne hother
  intro sleeper hasleep
  rw [hphases, Record.get_set] at hasleep
  split at hasleep
  · exact absurd hasleep hawake
  · rcases h sleeper hasleep with hcontended | ⟨other, hother⟩ | ⟨other, hother⟩
    · exact .inl (hword hcontended)
    · exact .inr (.inl ⟨other, hkeeps hwaking hother⟩)
    · exact .inr (.inr ⟨other, hkeeps hcontending hother⟩)

theorem change (h : Wakeful s) (hchange : Change s thread next) : Wakeful next := by
  have hphase : ∀ {s : System τ n} {phase : Phase τ},
      (s.withPhase thread phase).phases.get thread = phase := by
    intro s phase
    rw [phases_withPhase, if_pos rfl]
  cases hchange with
  | acquired hthread hfree =>
    apply h.pass rfl
    all_goals simp [hthread, hfree]
  | failed => exact of_alert (.inr (.inr ⟨thread, hphase⟩))
  | barged => exact of_alert (.inl rfl)
  | contended => exact of_alert (.inl rfl)
  | slept _ hcontended => exact of_alert (.inl hcontended)
  | stayed => exact of_alert (.inr (.inr ⟨thread, hphase⟩))
  | loaded hthread =>
    apply h.pass rfl
    all_goals simp [hthread, withPhase]
  | stored hthread =>
    apply h.pass rfl
    all_goals simp [hthread, withPhase]
  | idled hthread =>
    apply h.pass rfl
    all_goals simp [hthread, withPhase]
  | released hthread hword =>
    apply h.pass rfl
    all_goals simp [hthread, hword]
  | releasedContended => exact of_alert (.inr (.inl ⟨thread, hphase⟩))
  | @woke sleeper hthread hasleep =>
    have hne : thread ≠ sleeper := by
      intro heq
      subst heq
      cases hthread.symm.trans hasleep
    refine of_alert (.inr (.inr ⟨sleeper, ?_⟩))
    rw [phases_withPhase, if_neg hne, phases_withPhase, if_pos rfl]
  | wokeNobody _ hnobody =>
    intro sleeper hasleep
    rw [phases_withPhase] at hasleep
    split at hasleep
    · cases hasleep
    · exact absurd hasleep (hnobody sleeper)
  | roused => exact of_alert (.inr (.inr ⟨thread, hphase⟩))

end Wakeful

/-- Nothing can happen unless a sleeper wakes by itself. -/
def Stuck (s : System τ n) : Prop :=
  ∀ {move next}, s.step move = some next → ∃ sleeper, move = .rouse sleeper

theorem Stuck.advance (h : s.Stuck) (thread : Fin n) : s.advance thread = none := by
  cases hadvance : s.advance thread with
  | none => rfl
  | some next =>
    have hstep : s.step (.advance thread) = some next := hadvance
    rcases h hstep with ⟨_, ⟨⟩⟩

theorem Stuck.not_waking (h : s.Stuck) : s.phases.get thread ≠ .waking := by
  intro hwaking
  by_cases hnobody : ∀ other : Fin n, ¬(s.phases.get other).isAsleep
  · have hstep : s.step (.wake thread none) = some (s.withPhase thread .outside) := by
      rw [step, if_pos ⟨by rw [hwaking]; rfl, hnobody⟩]
    rcases h hstep with ⟨_, ⟨⟩⟩
  · obtain ⟨sleeper, hasleep⟩ := Classical.not_forall_not.mp hnobody
    have hstep : s.step (.wake thread (some sleeper)) =
        some ((s.withPhase sleeper .contending).withPhase thread .outside) := by
      rw [step, if_pos ⟨by rw [hwaking]; rfl, hasleep⟩]
    rcases h hstep with ⟨_, ⟨⟩⟩

/-- In a stuck system every thread sleeps or has nothing left to do. -/
theorem Stuck.asleep_or_outside (h : s.Stuck) (thread : Fin n) :
    s.phases.get thread = .asleep ∨
      s.phases.get thread = .outside ∧ s.sections.get thread = [] := by
  have hadvance := h.advance thread
  have hwaking : s.phases.get thread ≠ .waking := h.not_waking
  unfold System.advance at hadvance
  cases hphase : s.phases.get thread with
  | asleep => exact .inl rfl
  | waking => exact absurd hphase hwaking
  | outside =>
    rw [hphase] at hadvance
    cases hsections : s.sections.get thread with
    | nil => exact .inr ⟨rfl, rfl⟩
    | cons change rest =>
      rw [hsections] at hadvance
      cases hadvance
  | contending | waiting | entered | loaded _ | leaving =>
    rw [hphase] at hadvance
    cases hadvance

theorem Stuck.finished (h : s.Stuck) (exclusive : Exclusive s) (wakeful : Wakeful s)
    (thread : Fin n) : s.phases.get thread = .outside ∧ s.sections.get thread = [] := by
  apply (h.asleep_or_outside thread).resolve_left
  intro hasleep
  rcases wakeful _ hasleep with hcontended | ⟨other, hwaking⟩ | ⟨other, hcontending⟩
  · -- Somebody holds a contended lock, and a holder neither sleeps nor is outside.
    have htaken : ¬∀ holder, ¬(s.phases.get holder).holds := fun hnobody => by
      cases hcontended.symm.trans (exclusive.free.mpr hnobody)
    obtain ⟨holder, hholds⟩ := Classical.not_forall_not.mp htaken
    rcases h.asleep_or_outside holder with hphase | ⟨hphase, -⟩
    · rw [hphase] at hholds
      cases hholds
    · rw [hphase] at hholds
      cases hholds
  · exact h.not_waking hwaking
  · rcases h.asleep_or_outside other with hphase | ⟨hphase, -⟩
    · cases hcontending.symm.trans hphase
    · cases hcontending.symm.trans hphase

/-- Whatever the interleaving, in every system that can be reached in which a thread sleeps
the word is contended, or a thread that has unlocked has still to wake somebody, or a thread
that is awake is about to contend the word. So no thread sleeps beside a free lock with
nobody to look after it, and when nothing can happen any more, spurious wake-ups apart,
no thread sleeps at all and every section has been finished. -/
theorem wakeup_of_run {value : τ} {sections : Vector (List (τ → τ)) n}
    (h : (initial value sections).Reaches s) :
    (∀ sleeper, s.phases.get sleeper = .asleep →
      s.word = .contended ∨ (∃ thread, s.phases.get thread = .waking) ∨
        ∃ thread, s.phases.get thread = .contending) ∧
      ¬(s.word = .unlocked ∧ (∃ sleeper, s.phases.get sleeper = .asleep) ∧
        ∀ thread, s.phases.get thread ≠ .waking ∧ s.phases.get thread ≠ .contending) ∧
      (s.Stuck → ∀ thread, s.phases.get thread = .outside ∧ s.sections.get thread = []) := by
  have hinvariant : Exclusive s ∧ Wakeful s :=
    h.invariant (fun s => Exclusive s ∧ Wakeful s)
      ⟨.initial value sections, .initial value sections⟩
      fun ⟨exclusive, wakeful⟩ hchange => ⟨exclusive.change hchange, wakeful.change hchange⟩
  rcases hinvariant with ⟨exclusive, wakeful⟩
  refine ⟨wakeful, ?_, fun hstuck => hstuck.finished exclusive wakeful⟩
  intro ⟨hfree, ⟨sleeper, hasleep⟩, hnobody⟩
  rcases wakeful _ hasleep with hcontended | ⟨thread, hwaking⟩ | ⟨thread, hcontending⟩
  · cases hfree.symm.trans hcontended
  · exact (hnobody thread).1 hwaking
  · exact (hnobody thread).2 hcontending

/-- A third thread takes the lock before the second one is woken. -/
theorem wakeup_of_run_barged : ∃ s : System Nat 3,
    (initial 5 #v[[(· + 1)], [(· * 2)], [(· + 3)]]).Reaches s ∧ s.word = .locked ∧
      s.phases.get 1 = .asleep ∧ (s.phases.get 2).holds ∧
      ((∃ thread, s.phases.get thread = .waking) ∨
        ∃ thread, s.phases.get thread = .contending) := by
  let moves : List (Move 3) := [.advance 0, .advance 1, .advance 1, .advance 1, .advance 0,
    .advance 0, .advance 0, .advance 2]
  have hrun : (initial 5 #v[[(· + 1)], [(· * 2)], [(· + 3)]]).run moves =
      some ⟨.locked, 6, #v[.waking, .asleep, .entered], #v[[], [(· * 2)], [(· + 3)]]⟩ := rfl
  have hreaches := Reaches.start.run hrun
  have halert := (wakeup_of_run hreaches).1 1 rfl
  exact ⟨_, hreaches, rfl, rfl, rfl, halert.resolve_left (by simp)⟩

end RegionHeap.Lock.System
