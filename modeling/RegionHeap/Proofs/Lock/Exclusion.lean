import RegionHeap.Proofs.Lock

/-!
# At most one thread holds the lock

The word is unlocked exactly when nobody holds the lock, and then only does a try
or a swap take it. This is kept by every change, although the contended path
overwrites the word while somebody else holds the lock, and although it may take
the lock itself by the same swap. A thread that holds the lock has therefore read
the value that is still there when it writes back, so the sections take effect
one after the other, whatever the interleaving.
-/
namespace RegionHeap.Lock.System

variable {τ : Type} {n : Nat} {start s next : System τ n} {thread other : Fin n}
  {phase : Phase τ} {word : State}

/-- Nobody holds the lock together with another thread, the word says whether it is held,
and what its holder has read is up to date. -/
structure Exclusive (s : System τ n) : Prop where
  one : ∀ {a b}, (s.phases.get a).holds → (s.phases.get b).holds → a = b
  free : s.word = .unlocked ↔ ∀ thread, ¬(s.phases.get thread).holds
  current : ∀ {thread value}, s.phases.get thread = .loaded value → value = s.value

namespace Exclusive

theorem initial (value : τ) (sections : Vector (List (τ → τ)) n) :
    Exclusive (.initial value sections) := by
  have hphase : ∀ thread, (System.initial value sections).phases.get thread = .outside :=
    fun _ => Record.get_replicate _
  constructor
  case one => simp [hphase, Phase.holds]
  case free =>
    refine iff_of_true rfl fun thread => ?_
    simp [hphase, Phase.holds]
  case current => simp [hphase]

theorem take (h : Exclusive s) (hfree : s.word = .unlocked) (hword : word ≠ .unlocked) :
    Exclusive ({ s with word := word }.withPhase thread .entered) := by
  have hnobody := h.free.mp hfree
  constructor
  case one =>
    intro a b ha hb
    rw [phases_withPhase] at ha hb
    split at ha
    · split at hb
      · exact Eq.trans (Eq.symm ‹_›) ‹_›
      · exact absurd hb (hnobody b)
    · exact absurd ha (hnobody a)
  case free =>
    refine iff_of_false hword fun hnone => hnone thread ?_
    rw [phases_withPhase, if_pos rfl]
    rfl
  case current =>
    intro other value hloaded
    rw [phases_withPhase] at hloaded
    split at hloaded
    · cases hloaded
    · exact h.current hloaded

theorem giveBack (h : Exclusive s) (hheld : (s.phases.get thread).holds)
    (hphase : phase.holds = false) :
    Exclusive ({ s with word := .unlocked }.withPhase thread phase) := by
  have hnobody : ∀ other,
      ¬(({ s with word := .unlocked }.withPhase thread phase).phases.get other).holds := by
    intro other hother
    rw [phases_withPhase] at hother
    split at hother
    · rw [hphase] at hother
      cases hother
    · rename_i hne
      exact hne (h.one hheld hother)
  constructor
  case one => exact fun ha => absurd ha (hnobody _)
  case free => exact iff_of_true rfl hnobody
  case current =>
    intro other value hloaded
    exact absurd (by rw [hloaded]; rfl) (hnobody other)

/-- A thread goes on without taking the lock or giving it back, and leaves the word taken
or free as it was. -/
theorem pass (h : Exclusive s) (word : State) (hword : word = .unlocked ↔ s.word = .unlocked)
    (hholds : phase.holds = (s.phases.get thread).holds)
    (hcurrent : ∀ {value}, phase = .loaded value → value = s.value) :
    Exclusive ({ s with word := word }.withPhase thread phase) := by
  have hsame : ∀ other, (({ s with word := word }.withPhase thread phase).phases.get other).holds =
      (s.phases.get other).holds := by
    intro other
    rw [phases_withPhase]
    split
    · rename_i heq
      rw [hholds, heq]
    · rfl
  constructor
  case one =>
    intro a b ha hb
    rw [hsame] at ha hb
    exact h.one ha hb
  case free =>
    simp only [hsame]
    exact hword.trans h.free
  case current =>
    intro other value hloaded
    rw [phases_withPhase] at hloaded
    split at hloaded
    · exact hcurrent hloaded
    · exact h.current hloaded

/-- Nobody but the thread that writes back has read the value. -/
theorem store (h : Exclusive s) {read value : τ} (hread : s.phases.get thread = .loaded read)
    (sections : Vector (List (τ → τ)) n) :
    Exclusive ({ s with value := value, sections := sections }.withPhase thread .leaving) := by
  have hheld : (s.phases.get thread).holds := by
    rw [hread]
    rfl
  have hleaving : Exclusive (s.withPhase thread .leaving) :=
    h.pass s.word Iff.rfl hheld.symm (by simp)
  constructor
  case one => exact hleaving.one
  case free => exact hleaving.free
  case current =>
    intro other value hloaded
    rw [phases_withPhase] at hloaded
    split at hloaded
    · cases hloaded
    · rename_i hne
      exact absurd (h.one hheld (by rw [hloaded]; rfl)) hne

theorem change (h : Exclusive s) (hchange : Change s thread next) : Exclusive next := by
  cases hchange with
  | acquired _ hfree => exact h.take hfree (by simp)
  | failed hphase => exact h.pass s.word Iff.rfl (by rw [hphase]; rfl) (by simp)
  | barged _ hfree => exact h.take hfree (by simp)
  | contended hphase htaken =>
    exact h.pass .contended (by simp [htaken]) (by rw [hphase]; rfl) (by simp)
  | slept hphase => exact h.pass s.word Iff.rfl (by rw [hphase]; rfl) (by simp)
  | stayed hphase => exact h.pass s.word Iff.rfl (by rw [hphase]; rfl) (by simp)
  | loaded hphase => exact h.pass s.word Iff.rfl (by rw [hphase]; rfl) (by simp)
  | stored hphase => exact h.store hphase _
  | idled hphase => exact h.pass s.word Iff.rfl (by rw [hphase]; rfl) (by simp)
  | released hphase => exact h.giveBack (by rw [hphase]; rfl) rfl
  | releasedContended hphase => exact h.giveBack (by rw [hphase]; rfl) rfl
  | woke hwaking hasleep =>
    have hawake : Exclusive (s.withPhase _ .contending) :=
      h.pass s.word Iff.rfl (by rw [hasleep]; rfl) (by simp)
    refine hawake.pass s.word Iff.rfl ?_ (by simp)
    rw [phases_withPhase]
    split
    · rfl
    · rw [hwaking]
      rfl
  | wokeNobody hphase => exact h.pass s.word Iff.rfl (by rw [hphase]; rfl) (by simp)
  | roused hphase => exact h.pass s.word Iff.rfl (by rw [hphase]; rfl) (by simp)

end Exclusive

/-- The value that sections make of a value, one after the other. -/
def replay (order : List (Fin n × (τ → τ))) (value : τ) : τ :=
  order.foldl (fun value finished => finished.2 value) value

/-- The sections of one thread, in the order in which they were finished. -/
def sectionsOf (order : List (Fin n × (τ → τ))) (thread : Fin n) : List (τ → τ) :=
  (order.filter (·.1 = thread)).map (·.2)

/-- The value is what the finished sections make of the first one in this order, and each
thread has finished its sections from the first one on. -/
structure Serial (start s : System τ n) (order : List (Fin n × (τ → τ))) : Prop where
  value : s.value = replay order start.value
  sections : ∀ thread, start.sections.get thread = sectionsOf order thread ++ s.sections.get thread

theorem sectionsOf_append (order : List (Fin n × (τ → τ))) (change : τ → τ) :
    sectionsOf (order ++ [(thread, change)]) other =
      sectionsOf order other ++ if thread = other then [change] else [] := by
  rw [sectionsOf, List.filter_append, List.map_append, ← sectionsOf]
  by_cases heq : thread = other <;> simp [heq]

theorem replay_append (order : List (Fin n × (τ → τ))) (change : τ → τ) (value : τ) :
    replay (order ++ [(thread, change)]) value = change (replay order value) := by
  rw [replay, List.foldl_append, ← replay]
  rfl

theorem Serial.same {order : List (Fin n × (τ → τ))} (h : Serial start s order)
    (hvalue : next.value = s.value) (hsections : next.sections = s.sections) :
    Serial start next order :=
  ⟨hvalue.trans h.value, fun thread => hsections ▸ h.sections thread⟩

theorem Serial.store {order : List (Fin n × (τ → τ))} (h : Serial start s order)
    {change : τ → τ} {rest : List (τ → τ)} (hsections : s.sections.get thread = change :: rest)
    (phases : Vector (Phase τ) n) :
    Serial start { s with
      value := change s.value
      sections := s.sections.set thread rest thread.isLt
      phases := phases } (order ++ [(thread, change)]) where
  value := by rw [replay_append, ← h.value]
  sections := by
    intro other
    rw [h.sections other, sectionsOf_append, Record.get_set]
    split
    · rename_i heq
      rw [← heq, hsections, List.append_assoc]
      rfl
    · rw [List.append_nil]

theorem Serial.change {order : List (Fin n × (τ → τ))} (h : Serial start s order)
    (exclusive : Exclusive s) (hchange : Change s thread next) :
    ∃ order, Serial start next order := by
  cases hchange with
  | stored hread hsections =>
    obtain rfl := exclusive.current hread
    exact ⟨_, h.store hsections _⟩
  | _ => exact ⟨order, h.same rfl rfl⟩

/-- Whatever the interleaving, in every system that can be reached at most one thread is
between taking the lock and giving it back, the word is unlocked exactly when none is, and
the value is that of the finished sections in some order that respects the order of each
thread. When nothing is left to do, these are all sections, so none was lost. -/
theorem exclusion_of_run {value : τ} {sections : Vector (List (τ → τ)) n}
    (h : (initial value sections).Reaches s) :
    (∀ a b, (s.phases.get a).holds → (s.phases.get b).holds → a = b) ∧
      (s.word = .unlocked ↔ ∀ thread, ¬(s.phases.get thread).holds) ∧
      ∃ order, s.value = replay order value ∧
        ∀ thread, sections.get thread = sectionsOf order thread ++ s.sections.get thread := by
  obtain ⟨exclusive, order, serial⟩ := h.invariant
    (fun s => Exclusive s ∧ ∃ order, Serial (initial value sections) s order)
    ⟨.initial value sections, [], rfl, fun _ => rfl⟩
    fun ⟨exclusive, _, serial⟩ hchange =>
      ⟨exclusive.change hchange, serial.change exclusive hchange⟩
  exact ⟨fun _ _ => exclusive.one, exclusive.free, order, serial.value, serial.sections⟩

/-- One of two threads sleeps until the other one wakes it. -/
theorem exclusion_of_run_two : ∃ s : System Nat 2,
    (initial 5 #v[[(· + 1)], [(· * 2)]]).Reaches s ∧ s.value = 12 ∧
      (∀ thread, ¬(s.phases.get thread).holds) ∧
      ∃ order, 12 = replay order 5 ∧
        ∀ thread, (#v[[(· + 1)], [(· * 2)]] : Vector (List (Nat → Nat)) 2).get thread =
          sectionsOf order thread ++ s.sections.get thread := by
  let moves : List (Move 2) := [.advance 0, .advance 1, .advance 1, .advance 1, .advance 0,
    .advance 0, .advance 0, .wake 0 (some 1), .advance 1, .advance 1, .advance 1, .advance 1,
    .wake 1 none]
  have hrun : (initial 5 #v[[(· + 1)], [(· * 2)]]).run moves =
      some ⟨.unlocked, 12, #v[.outside, .outside], #v[[], []]⟩ := rfl
  have hreaches := Reaches.start.run hrun
  obtain ⟨-, hfree, hserial⟩ := exclusion_of_run hreaches
  exact ⟨_, hreaches, rfl, hfree.mp rfl, hserial⟩

end RegionHeap.Lock.System
