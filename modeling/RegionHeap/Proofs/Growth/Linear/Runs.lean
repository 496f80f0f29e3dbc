import RegionHeap.Proofs.Growth.Linear
import RegionHeap.Proofs.Growth.Source

/-!
# Linear growth over whole runs

A run of a linear region is any sequence of requests to grow, of observers that
come and go, and of growth of the page store behind the back of the region. Each
deed adds a number of pages to the region, if any, so every block starts where
everything that was gained before it ends, and each is told once to whoever was
the observer then. Blocks therefore never overlap, and the region never shrinks.
-/
namespace RegionHeap.Growth.Linear

variable {μ : Type} [PageStore μ] {Fit : μ → Prop} {first region next : Linear μ}
  {delta : Int}

inductive Deed where
  | grew (delta : Int) (answer : Option Nat)
  /-- The page store was grown directly. -/
  | grewStore (pages : Nat) (previous : Option Nat)
  | setObserver (observer : Observer)
  | clearedObserver
deriving Repr, DecidableEq

namespace Deed

/-- The block that was given out, if one was. -/
def grant? : Deed → Option Grant
  | grew delta (some base) =>
    if 0 < delta then some ⟨base, pagesFor delta * linearPageSize⟩ else none
  | _ => none

/-- The number of pages that the region has gained. -/
def pages : Deed → Nat
  | grew delta (some _) => pagesFor delta
  | grewStore pages (some _) => pages
  | _ => 0

/-- The observer afterwards, if `current` was the observer before. -/
def watcher (current : Option Observer) : Deed → Option Observer
  | setObserver observer => some observer
  | clearedObserver => none
  | _ => current

/-- What an observer has to be told. -/
def due (current : Option Observer) (deed : Deed) : List (Observer × Grant) :=
  match current, deed.grant? with
  | some observer, some grant => [(observer, grant)]
  | _, _ => []

theorem size_of_grant? {deed : Deed} {grant : Grant} (h : deed.grant? = some grant) :
    grant.size = deed.pages * linearPageSize := by
  cases deed with
  | grew delta answer =>
    cases answer with
    | none => cases h
    | some base =>
      obtain ⟨-, hgrant⟩ := Option.ite_none_right_eq_some.mp h
      rw [← Option.some.inj hgrant]
      rfl
  | _ => cases h

end Deed

/-- The observer that was set last and not cleared since. -/
def watcherAfter (current : Option Observer) (deeds : List Deed) : Option Observer :=
  deeds.foldl Deed.watcher current

/-- The blocks that were given out, in order. -/
def grantsOf (deeds : List Deed) : List Grant := deeds.filterMap Deed.grant?

/-- The number of pages that the region has gained in all. -/
def pagesOf : List Deed → Nat
  | [] => 0
  | deed :: rest => deed.pages + pagesOf rest

theorem pagesOf_concat (deeds : List Deed) (deed : Deed) :
    pagesOf (deeds ++ [deed]) = pagesOf deeds + deed.pages := by
  induction deeds with
  | nil => exact Nat.add_comm _ _
  | cons head deeds ih => rw [List.cons_append, pagesOf, ih, ← Nat.add_assoc, ← pagesOf]

/-- What has to be told, and to whom, if `current` is the observer at first. -/
def noticesDue (current : Option Observer) : List Deed → List (Observer × Grant)
  | [] => []
  | deed :: rest => deed.due current ++ noticesDue (deed.watcher current) rest

theorem noticesDue_append (current : Option Observer) (deeds : List Deed) (deed : Deed) :
    noticesDue current (deeds ++ [deed]) =
      noticesDue current deeds ++ deed.due (watcherAfter current deeds) := by
  induction deeds generalizing current with
  | nil => simp [noticesDue, watcherAfter]
  | cons head deeds ih =>
    rw [List.cons_append, noticesDue, ih, noticesDue, List.append_assoc]
    rfl

/-- Every region that a first one can become, with the deeds and the events on the way. -/
inductive Run (first : Linear μ) : List Deed → List Event → Linear μ → Prop
  | start : Run first [] [] first
  | grow {deeds : List Deed} {events : List Event} {region : Linear μ} {delta : Int}
      {reply : Reply (Option Nat) (Linear μ)} :
      Run first deeds events region → delta ≤ Word.signedMax →
      Provider.grow delta region = .ok reply →
      Run first (deeds ++ [.grew delta reply.answer]) (events ++ reply.events) reply.state
  | growStore {deeds : List Deed} {events : List Event} {region : Linear μ} {pages : Nat} :
      Run first deeds events region → pages < Word.bound →
      Run first (deeds ++ [.grewStore pages (PageStore.grow pages region.store).1])
        (events ++ [.pagesAsked pages (PageStore.grow pages region.store).1])
        { region with store := (PageStore.grow pages region.store).2 }
  | setObserver {deeds : List Deed} {events : List Event} {region : Linear μ}
      (observer : Observer) :
      Run first deeds events region →
      Run first (deeds ++ [.setObserver observer]) (events ++ [])
        (Provider.setObserver observer region).2
  | clearObserver {deeds : List Deed} {events : List Event} {region : Linear μ} :
      Run first deeds events region →
      Run first (deeds ++ [.clearedObserver]) (events ++ []) region.clearObserver

structure Does (Fit : μ → Prop) (region : Linear μ) (deed : Deed) (events : List Event)
    (next : Linear μ) : Prop where
  fit : Fit next.store
  base : PageStore.base next.store = PageStore.base region.store
  size : PageStore.size next.store = PageStore.size region.store + deed.pages
  observer : next.observer = deed.watcher region.observer
  notices : noticesIn events = deed.due region.observer
  granted : ∀ {grant}, deed.grant? = some grant → grant.base = region.stop

/-- How a region stands to the one that it was at first. -/
structure Account (Fit : μ → Prop) (first : Linear μ) (deeds : List Deed) (events : List Event)
    (region : Linear μ) : Prop where
  fit : Fit region.store
  base : PageStore.base region.store = PageStore.base first.store
  size : PageStore.size region.store = PageStore.size first.store + pagesOf deeds
  observer : region.observer = watcherAfter first.observer deeds
  notices : noticesIn events = noticesDue first.observer deeds
  /-- A block starts where everything that was gained before it ends. -/
  granted : ∀ {before deed grant}, before ++ [deed] <+: deeds → deed.grant? = some grant →
    grant.base = first.stop + pagesOf before * linearPageSize
  inside : ∀ grant ∈ grantsOf deeds,
    first.stop ≤ grant.base ∧ grant.base + grant.size ≤ region.stop
  ascending : (grantsOf deeds).Pairwise fun a b => a.base + a.size ≤ b.base

theorem Does.stop {deed : Deed} {events : List Event} (h : Does Fit region deed events next) :
    next.stop = region.stop + deed.pages * linearPageSize := by
  rw [Linear.stop, h.base, h.size, Nat.add_mul, ← Nat.add_assoc, ← Linear.stop]

theorem Account.stop {deeds : List Deed} {events : List Event}
    (h : Account Fit first deeds events region) :
    region.stop = first.stop + pagesOf deeds * linearPageSize := by
  rw [Linear.stop, h.base, h.size, Nat.add_mul, ← Nat.add_assoc, ← Linear.stop]

theorem Account.start (hfit : Fit first.store) : Account Fit first [] [] first where
  fit := hfit
  base := rfl
  size := rfl
  observer := rfl
  notices := rfl
  granted := by simp
  inside := by simp [grantsOf]
  ascending := by simp [grantsOf]

theorem Account.snoc {deeds : List Deed} {deed : Deed} {events more : List Event}
    (h : Account Fit first deeds events region) (hdoes : Does Fit region deed more next) :
    Account Fit first (deeds ++ [deed]) (events ++ more) next := by
  have hgrants : grantsOf (deeds ++ [deed]) = grantsOf deeds ++ deed.grant?.toList := by
    rw [grantsOf, List.filterMap_append, ← grantsOf]
    cases hgrant : deed.grant? <;> simp [hgrant]
  have hstop : region.stop ≤ next.stop := by
    rw [hdoes.stop]
    exact Nat.le_add_right _ _
  constructor
  case fit => exact hdoes.fit
  case base => exact hdoes.base.trans h.base
  case size => rw [hdoes.size, h.size, pagesOf_concat, Nat.add_assoc]
  case observer =>
    rw [hdoes.observer, h.observer, watcherAfter, watcherAfter, List.foldl_append]
    rfl
  case notices =>
    rw [noticesIn_append, h.notices, hdoes.notices, noticesDue_append, h.observer]
  case granted =>
    intro before last grant hprefix hgrant
    rcases List.prefix_concat_iff.mp hprefix with heq | hprefix
    · obtain ⟨rfl, rfl⟩ := List.append_singleton_inj.mp heq
      rw [hdoes.granted hgrant, h.stop]
    · exact h.granted hprefix hgrant
  case inside =>
    intro grant hmem
    rw [hgrants, List.mem_append, Option.mem_toList] at hmem
    rcases hmem with hold | hnew
    · obtain ⟨hlow, hhigh⟩ := h.inside grant hold
      exact ⟨hlow, Nat.le_trans hhigh hstop⟩
    · rw [hdoes.granted hnew, Deed.size_of_grant? hnew, ← hdoes.stop, h.stop]
      exact ⟨Nat.le_add_right _ _, Nat.le_refl _⟩
  case ascending =>
    rw [hgrants, List.pairwise_append]
    refine ⟨h.ascending, ?_, ?_⟩
    · cases deed.grant? <;> simp
    · intro earlier hearlier grant hnew
      rw [hdoes.granted (Option.mem_toList.mp hnew)]
      exact (h.inside earlier hearlier).2

section runs

variable (contract : PageStore.Contract Fit)

include contract

theorem does_grow {reply : Reply (Option Nat) (Linear μ)} (hfit : Fit region.store)
    (hsigned : delta ≤ Word.signedMax) (hgrow : Provider.grow delta region = .ok reply) :
    Does Fit region (.grew delta reply.answer) reply.events reply.state := by
  rcases Int.lt_trichotomy delta 0 with hneg | rfl | hpos
  · rw [grow_of_neg hneg] at hgrow
    obtain rfl := Except.ok.inj hgrow
    exact ⟨hfit, rfl, rfl, rfl, by cases region.observer <;> rfl, by simp [Deed.grant?]⟩
  · obtain rfl := Except.ok.inj (grow_zero.symm.trans hgrow)
    refine ⟨hfit, rfl, ?_, rfl, ?_, ?_⟩
    · cases region.top <;> rfl
    · cases region.observer <;> cases region.top <;> rfl
    · cases region.top <;> simp [Deed.grant?]
  · have hword := pagesFor_lt hsigned
    cases grown contract hfit hpos hsigned with
    | refused hstore hsize hrefused =>
      obtain rfl := Except.ok.inj (hrefused.symm.trans hgrow)
      have hbase := contract.base hfit hword
      have hnext := contract.fit hfit hword
      rw [hstore] at hbase hnext
      exact ⟨hnext, hbase, hsize, rfl, by cases region.observer <;> rfl, by simp [Deed.grant?]⟩
    | granted hstore hsize htop hgranted =>
      obtain rfl := Except.ok.inj (hgranted.symm.trans hgrow)
      have hbase := contract.base hfit hword
      have hnext := contract.fit hfit hword
      rw [hstore] at hbase hnext
      rw [top_eq, Option.ite_none_right_eq_some, Option.some.injEq] at htop
      refine ⟨hnext, hbase, hsize, rfl, ?_, ?_⟩
      · cases hobserver : region.observer <;> simp [noticesIn, Deed.due, Deed.grant?, hpos]
      · simp [Deed.grant?, hpos, htop.2]

theorem does_growStore {pages : Nat} (hfit : Fit region.store) (hword : pages < Word.bound) :
    Does Fit region (.grewStore pages (PageStore.grow pages region.store).1)
      [.pagesAsked pages (PageStore.grow pages region.store).1]
      { region with store := (PageStore.grow pages region.store).2 } where
  fit := contract.fit hfit hword
  base := contract.base hfit hword
  size := by
    rcases contract.grow hfit hword with ⟨hnone, hsize⟩ | ⟨hsome, hsize⟩
    · rw [hnone]
      exact hsize
    · rw [hsome]
      exact hsize
  observer := rfl
  notices := by cases region.observer <;> rfl
  granted := by simp [Deed.grant?]

theorem Run.account {deeds : List Deed} {events : List Event} (hfit : Fit first.store)
    (h : Run first deeds events region) : Account Fit first deeds events region := by
  induction h with
  | start => exact .start hfit
  | grow _ hsigned hgrow ih => exact ih.snoc (does_grow contract ih.fit hsigned hgrow)
  | growStore _ hword ih => exact ih.snoc (does_growStore contract ih.fit hword)
  | @setObserver _ _ region _ _ ih =>
    exact ih.snoc ⟨ih.fit, rfl, rfl, rfl, by cases region.observer <;> rfl, by simp [Deed.grant?]⟩
  | @clearObserver _ _ region _ ih =>
    exact ih.snoc ⟨ih.fit, rfl, rfl, rfl, by cases region.observer <;> rfl, by simp [Deed.grant?]⟩

/-- Over a store that keeps its contract, every run of a region has this account: the page
count is the first one and all pages gained since, each block starts where all gained before
it ends, blocks ascend without overlap and lie between the first end and the present one,
and exactly the blocks were told, once each and to whoever was the observer then. The region
never gets smaller. A negative request is refused and an empty one gives the top, both
without any effect, and a positive one is refused exactly if the store refuses the pages. A
reservation of address space is such a store if the system gives only ranges that there are. -/
theorem growth_of_run {deeds : List Deed} {events : List Event} (hfit : Fit first.store)
    (hrun : Run first deeds events region) :
    Account Fit first deeds events region ∧
      first.regionSize ≤ region.regionSize ∧
      (∀ delta : Int, delta < 0 → Provider.grow delta region = .ok ⟨none, region, []⟩) ∧
      Provider.grow 0 region = .ok ⟨region.top, region, []⟩ ∧
      (∀ delta : Int, 0 < delta → delta ≤ Word.signedMax →
        Grown region (watcherAfter first.observer deeds) delta) ∧
      ∀ {place initial limit store},
        (∀ {bytes base}, place bytes = some base → base + bytes ≤ Word.bound) →
        ReservedPages.reserve place initial limit = some store →
        PageStore.Contract (PageStore.Within ReservedPages.limit) ∧
          PageStore.Within ReservedPages.limit store := by
  have account := hrun.account contract hfit
  refine ⟨account, ?_, fun _ => grow_of_neg, grow_zero, ?_, ?_⟩
  · have hpages : PageStore.size first.store ≤ PageStore.size region.store := by
      rw [account.size]
      exact Nat.le_add_right _ _
    have hbytes := Nat.mul_le_mul_right linearPageSize hpages
    exact Nat.le_min.mpr ⟨Nat.le_trans (Nat.min_le_left _ _) hbytes, Nat.min_le_right _ _⟩
  · intro delta hpos hsigned
    rw [← account.observer]
    exact grown contract account.fit hpos hsigned
  · intro place initial limit store hplace hreserve
    exact ⟨ReservedPages.limited.contract, ReservedPages.within_of_reserve hplace hreserve⟩

end runs

/-- Three of four pages are gained in two blocks, with a page between them that went to
nobody, and only the first block is told. -/
theorem growth_of_run_reserved : ∃ store events region,
    ReservedPages.reserve ReservedPages.openRange 1 4 = some store ∧
      Run ⟨store, none⟩ [.setObserver ⟨"a"⟩, .grew 100 (some 0x100000010000),
        .grewStore 1 (some 2), .clearedObserver, .grew 1 (some 0x100000030000)] events region ∧
      noticesIn events = [(⟨"a"⟩, ⟨0x100000010000, 65536⟩)] ∧
      PageStore.size region.store = 4 ∧
      Grown region none 1 := by
  have hplace : ∀ {bytes base}, ReservedPages.openRange bytes = some base →
      base + bytes ≤ Word.bound := by
    intro bytes base hgiven
    obtain ⟨hbytes, hbase⟩ := Option.ite_none_right_eq_some.mp hgiven
    obtain rfl := Option.some.inj hbase
    simp only [Word.bound] at *
    omega
  have hreserve : ReservedPages.reserve ReservedPages.openRange 1 4 =
      some ⟨0x100000000000, 4, 1⟩ := by decide
  have hfit := ReservedPages.within_of_reserve hplace hreserve
  have hstart : Run (⟨⟨0x100000000000, 4, 1⟩, none⟩ : Linear ReservedPages) [] [] _ := .start
  have hgrown := (hstart.setObserver ⟨"a"⟩).grow (show (100 : Int) ≤ _ by decide) rfl
  have hcleared := (hgrown.growStore (show 1 < Word.bound by decide)).clearObserver
  have hrun := hcleared.grow (show (1 : Int) ≤ _ by decide) rfl
  obtain ⟨account, -, -, -, hnext, -⟩ := growth_of_run ReservedPages.limited.contract hfit hrun
  exact ⟨_, _, _, hreserve, hrun, account.notices, account.size, hnext 1 (by decide) (by decide)⟩

end RegionHeap.Growth.Linear
