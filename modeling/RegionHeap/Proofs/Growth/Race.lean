import RegionHeap.Growth.Race
import RegionHeap.Proofs.Growth.PageStore
import RegionHeap.Proofs.Record

/-!
# No page is given twice

However the threads interleave, the count that a thread has seen is never above the
current one, because the count only grows. An attempt succeeds only on the current
count, so each granted call has one change of the count to itself, from the count it
is told to the end of its pages, and the pages of all granted calls follow each other
without a gap. A call that gives up may have judged by an old count, but what was too
much for that one is too much for every later one.
-/
namespace RegionHeap.Growth.Race

namespace Finished

/-- The call was given this page. -/
def Has (finished : Finished) (page : Nat) : Prop :=
  ∃ previous, finished.previous = some previous ∧ previous ≤ page ∧
    page < previous + finished.pages

/-- No page was given to both calls. -/
def Apart (a b : Finished) : Prop := ∀ page, a.Has page → ¬b.Has page

end Finished

/-- The granted calls of a log, the newest first, go without a gap from one count to another. -/
def Tiles (first : Nat) : List Finished → Nat → Prop
  | [], last => last = first
  | finished :: older, last =>
    match finished.previous with
    | none => Tiles first older last
    | some previous => last = previous + finished.pages ∧ Tiles first older previous

namespace Tiles

variable {first last page : Nat} {log : List Finished}

theorem le (h : Tiles first log last) : first ≤ last := by
  induction log generalizing last with
  | nil => exact Nat.le_of_eq h.symm
  | cons finished older ih =>
    unfold Tiles at h
    split at h
    · exact ih h
    · rcases h with ⟨rfl, htiles⟩
      exact Nat.le_trans (ih htiles) (Nat.le_add_right _ _)

theorem has_iff (h : Tiles first log last) :
    (first ≤ page ∧ page < last) ↔ ∃ finished ∈ log, finished.Has page := by
  induction log generalizing last with
  | nil =>
    obtain rfl : last = first := h
    simp only [List.not_mem_nil, false_and, exists_false, iff_false]
    omega
  | cons finished older ih =>
    simp only [List.mem_cons, exists_eq_or_imp]
    unfold Tiles at h
    split at h
    · rename_i hprevious
      rw [ih h, or_iff_right]
      intro ⟨_, hsome, _⟩
      cases hprevious.symm.trans hsome
    · rename_i previous hprevious
      rcases h with ⟨rfl, htiles⟩
      have hfirst := htiles.le
      rw [← ih htiles]
      simp only [Finished.Has, hprevious, Option.some.injEq, exists_eq_left']
      omega

theorem pairwise (h : Tiles first log last) : log.Pairwise Finished.Apart := by
  induction log generalizing last with
  | nil => exact .nil
  | cons finished older ih =>
    unfold Tiles at h
    split at h
    · rename_i hprevious
      refine .cons (fun other _ page hhas => ?_) (ih h)
      obtain ⟨_, hsome, _⟩ := hhas
      cases hprevious.symm.trans hsome
    · rename_i previous hprevious
      rcases h with ⟨rfl, htiles⟩
      refine .cons (fun other hother page hhas hhasOther => ?_) (ih htiles)
      obtain ⟨_, hsome, hlow, _⟩ := hhas
      obtain rfl := Option.some.inj (hprevious.symm.trans hsome)
      have holder := htiles.has_iff.mpr ⟨other, hother, hhasOther⟩
      omega

end Tiles

/-- The page numbers that a thread has asked for, in the order of its calls. -/
def askedBy {n : Nat} (log : List Finished) (thread : Fin n) : List Nat :=
  (log.reverse.filter (·.thread = thread.val)).map (·.pages)

namespace State

variable {n : Nat} {start s next later : State n} {thread other : Fin n} {first : Nat}

inductive Change (s : State n) (thread : Fin n) : State n → Prop
  /-- The call starts, or its attempt fails, be it for no reason. -/
  | saw : Change s thread (s.withPhase thread (.seen s.count))
  /-- The call gives up, judging by the count that it has seen. -/
  | refused {seen pages : Nat} {rest : List Nat} :
      s.phases.get thread = .seen seen → s.requests.get thread = pages :: rest →
      enlarged? s.limit seen pages = none → Change s thread (s.finish thread pages rest none)
  /-- The count that was seen is still the current one. -/
  | granted {pages count : Nat} {rest : List Nat} :
      s.requests.get thread = pages :: rest → enlarged? s.limit s.count pages = some count →
      Change s thread ({ s with count := count }.finish thread pages rest (some s.count))

theorem change_of_step {move : Move n} (h : s.step move = some next) :
    ∃ thread, Change s thread next := by
  cases move with
  | load thread =>
    simp only [step] at h
    split at h
    · cases h
      exact ⟨thread, .saw⟩
    · cases h
  | attempt thread spurious =>
    simp only [step] at h
    split at h
    · rename_i seen pages rest hphase hrequests
      split at h
      · rename_i hnone
        cases h
        exact ⟨thread, .refused hphase hrequests hnone⟩
      · rename_i count hcount
        cases h
        unfold replace
        split
        · rename_i hcurrent
          obtain rfl := hcurrent.1
          exact ⟨thread, .granted hrequests hcount⟩
        · exact ⟨thread, .saw⟩
    · cases h

/-- What holds at the start and is kept by every change holds of all that can be reached. -/
theorem Reaches.invariant (h : start.Reaches s) (Inv : State n → Prop) (hstart : Inv start)
    (hchange : ∀ {s next thread}, Inv s → Change s thread next → Inv next) : Inv s := by
  induction h with
  | start => exact hstart
  | step move _ hstep ih =>
    obtain ⟨thread, hmove⟩ := change_of_step hstep
    exact hchange ih hmove

structure Counted (first limit : Nat) (s : State n) : Prop where
  same : s.limit = limit
  within : s.count ≤ limit
  seen : ∀ {thread count}, s.phases.get thread = .seen count → count ≤ s.count
  tiles : Tiles first s.log s.count
  refused : ∀ finished ∈ s.log, finished.previous = none → limit < s.count + finished.pages

/-- What a move does to the count and the log: nothing, or one call is finished, by a change
of the count to itself or by a refusal of what would be too much. -/
inductive Dealt (limit : Nat) (s next : State n) : Prop
  | passed : next.count = s.count → next.log = s.log → Dealt limit s next
  | granted {finished : Finished} : next.log = finished :: s.log →
      finished.previous = some s.count → next.count = s.count + finished.pages →
      Dealt limit s next
  | refused {finished : Finished} : next.log = finished :: s.log →
      finished.previous = none → next.count = s.count →
      limit < s.count + finished.pages → Dealt limit s next

theorem Dealt.count_le {limit : Nat} (h : Dealt limit s next) : s.count ≤ next.count := by
  cases h with
  | passed hcount => exact Nat.le_of_eq hcount.symm
  | granted _ _ hcount => exact hcount ▸ Nat.le_add_right _ _
  | refused _ _ hcount => exact Nat.le_of_eq hcount.symm

namespace Counted

variable {limit : Nat}

theorem initial (requests : Vector (List Nat) n) (hfirst : first ≤ limit) :
    Counted first limit (.initial limit first requests) where
  same := rfl
  within := hfirst
  seen := by
    intro thread count hseen
    have hready : (State.initial limit first requests).phases.get thread = .ready :=
      Record.get_replicate _
    cases hready.symm.trans hseen
  tiles := rfl
  refused := by simp [State.initial]

theorem lt_of_refused (h : Counted first limit s) (hlimit : limit < Word.max) {seen pages : Nat}
    (hphase : s.phases.get thread = .seen seen) (hnone : enlarged? s.limit seen pages = none) :
    limit < s.count + pages := by
  rw [h.same] at hnone
  have hseen := h.seen hphase
  have hmuch := lt_of_enlarged?_eq_none hlimit (Nat.le_trans hseen h.within) hnone
  exact Nat.lt_of_lt_of_le hmuch (Nat.add_le_add_right hseen _)

theorem dealt (h : Counted first limit s) (hlimit : limit < Word.max)
    (hchange : Change s thread next) : Dealt limit s next := by
  cases hchange with
  | saw => exact .passed rfl rfl
  | refused hphase _ hnone => exact .refused rfl rfl rfl (h.lt_of_refused hlimit hphase hnone)
  | granted _ hcount =>
    obtain ⟨rfl, -⟩ := enlarged?_eq_some hcount
    exact .granted rfl rfl rfl

theorem seen_set (h : Counted first limit s) {phase : Phase} {count : Nat}
    (hcount : s.count ≤ count) (hphase : ∀ {seen}, phase = .seen seen → seen ≤ count)
    {seen : Nat} (hseen : (s.phases.set thread phase thread.isLt).get other = .seen seen) :
    seen ≤ count := by
  rw [Record.get_set] at hseen
  split at hseen
  · exact hphase hseen
  · exact Nat.le_trans (h.seen hseen) hcount

theorem change (h : Counted first limit s) (hlimit : limit < Word.max)
    (hchange : Change s thread next) : Counted first limit next := by
  cases hchange with
  | saw =>
    have hseen : ∀ {seen}, Phase.seen s.count = .seen seen → seen ≤ s.count := by
      intro seen heq
      cases heq
      exact Nat.le_refl _
    exact ⟨h.same, h.within, h.seen_set (Nat.le_refl _) hseen, h.tiles, h.refused⟩
  | refused hphase _ hnone =>
    have hmuch := h.lt_of_refused hlimit hphase hnone
    refine ⟨h.same, h.within, h.seen_set (Nat.le_refl _) (by simp), h.tiles, ?_⟩
    exact List.forall_mem_cons.mpr ⟨fun _ => hmuch, h.refused⟩
  | granted _ hcount =>
    obtain ⟨rfl, hroom⟩ := enlarged?_eq_some hcount
    have hgrows := Nat.le_add_right s.count
    refine ⟨h.same, h.same ▸ hroom, h.seen_set (hgrows _) (by simp), ⟨rfl, h.tiles⟩, ?_⟩
    -- What was too much for the old count is too much for the new one.
    refine List.forall_mem_cons.mpr ⟨by simp, fun finished hmem hnone => ?_⟩
    exact Nat.lt_of_lt_of_le (h.refused finished hmem hnone)
      (Nat.add_le_add_right (hgrows _) _)

theorem count_le_of_reaches (h : Counted first limit s) (hlimit : limit < Word.max)
    (hlater : s.Reaches later) : s.count ≤ later.count ∧ Counted first limit later :=
  hlater.invariant (fun later => s.count ≤ later.count ∧ Counted first limit later)
    ⟨Nat.le_refl _, h⟩ fun ⟨hcount, counted⟩ hchange =>
      ⟨Nat.le_trans hcount (counted.dealt hlimit hchange).count_le,
        counted.change hlimit hchange⟩

end Counted

theorem askedBy_cons (finished : Finished) (log : List Finished) :
    askedBy (finished :: log) thread =
      askedBy log thread ++ if finished.thread = thread.val then [finished.pages] else [] := by
  rw [askedBy, List.reverse_cons, List.filter_append, List.map_append, ← askedBy]
  by_cases heq : finished.thread = thread.val <;> simp [heq]

/-- No call is missing in the log, and none is there twice. -/
theorem requests_change {requests : Vector (List Nat) n}
    (h : ∀ thread, requests.get thread = askedBy s.log thread ++ s.requests.get thread)
    (hchange : Change s thread next) (other : Fin n) :
    requests.get other = askedBy next.log other ++ next.requests.get other := by
  have hfinish : ∀ {pages rest previous}, s.requests.get thread = pages :: rest →
      requests.get other = askedBy (⟨thread, pages, previous⟩ :: s.log) other ++
        (s.requests.set thread rest thread.isLt).get other := by
    intro pages rest previous hrequests
    rw [h other, askedBy_cons, Record.get_set, List.append_assoc]
    simp only [← Fin.ext_iff]
    split
    · rename_i heq
      rw [← heq, hrequests]
      rfl
    · rfl
  cases hchange with
  | saw => exact h other
  | refused _ hrequests => exact hfinish hrequests
  | granted hrequests => exact hfinish hrequests

/-- Threads that race for the pages of one reservation, in whatever order their steps come:
the count never exceeds the limit and only grows; a call that is given pages makes one change
of the count, from what it is told to the end of its pages; no page is given twice, and the
given pages are all from the first count up to the current one; a call that is given nothing
asked for too much when it gave up, and still does in every later state. All calls are in the
log, in the order in which each thread made them. -/
theorem tiling_of_run {place : Nat → Option Nat} {initial limit : Nat} {store : ReservedPages}
    (hstore : ReservedPages.reserve place initial limit = some store)
    {requests : Vector (List Nat) n}
    (h : (State.initial store.limit store.pages requests).Reaches s) :
    s.count ≤ store.limit ∧
      (∀ {later}, s.Reaches later → s.count ≤ later.count) ∧
      (∀ {move next}, s.step move = some next → Dealt store.limit s next) ∧
      s.log.Pairwise Finished.Apart ∧
      (∀ page, (store.pages ≤ page ∧ page < s.count) ↔ ∃ finished ∈ s.log, finished.Has page) ∧
      (∀ finished ∈ s.log, finished.previous = none →
        ∀ {later}, s.Reaches later → store.limit < later.count + finished.pages) ∧
      ∀ thread, requests.get thread = askedBy s.log thread ++ s.requests.get thread := by
  obtain ⟨hfirst, hlimit⟩ := ReservedPages.limit_of_reserve hstore
  obtain ⟨-, counted⟩ := (Counted.initial requests hfirst).count_le_of_reaches hlimit h
  refine ⟨counted.within, fun hlater => (counted.count_le_of_reaches hlimit hlater).1, ?_,
    counted.tiles.pairwise, fun _ => counted.tiles.has_iff, ?_, ?_⟩
  · intro move next hstep
    obtain ⟨thread, hchange⟩ := change_of_step hstep
    exact counted.dealt hlimit hchange
  · intro finished hmem hnone later hlater
    have hgrows := (counted.count_le_of_reaches hlimit hlater).1
    exact Nat.lt_of_lt_of_le (counted.refused finished hmem hnone)
      (Nat.add_le_add_right hgrows _)
  · apply h.invariant fun s => ∀ thread, requests.get thread =
      askedBy s.log thread ++ s.requests.get thread
    · exact fun _ => rfl
    · exact fun hbefore hchange => requests_change hbefore hchange

/-- Of three calls for five pages, two of which are there already, the second is granted two,
the third judges by the count from before that, and the first by the current one. -/
theorem tiling_of_run_stale : ∃ s : State 3,
    (State.initial 5 2 #v[[3], [2], [4]]).Reaches s ∧
      s.log = [⟨0, 3, none⟩, ⟨2, 4, none⟩, ⟨1, 2, some 2⟩] ∧
      ∀ page, (2 ≤ page ∧ page < 4) ↔ ∃ finished ∈ s.log, finished.Has page := by
  have hstore : ReservedPages.reserve ReservedPages.openRange 2 5 = some ⟨1 <<< 44, 5, 2⟩ := by
    decide
  have hreaches : (State.initial 5 2 #v[[3], [2], [4]]).Reaches
      ⟨5, 4, #v[.ready, .ready, .ready], #v[[], [], []],
        [⟨0, 3, none⟩, ⟨2, 4, none⟩, ⟨1, 2, some 2⟩]⟩ :=
    ((((((((Reaches.start.step (.load 0) rfl).step (.load 1) rfl).step (.load 2) rfl).step
      (.attempt 1 true) rfl).step (.attempt 1 false) rfl).step (.attempt 2 false) rfl).step
      (.attempt 0 false) rfl).step (.attempt 0 false) rfl)
  exact ⟨_, hreaches, rfl, (tiling_of_run hstore hreaches).2.2.2.2.1⟩

end State

end RegionHeap.Growth.Race
