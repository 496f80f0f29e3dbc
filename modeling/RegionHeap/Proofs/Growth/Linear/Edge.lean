import RegionHeap.Proofs.Growth.Linear

/-!
# Linear growth at the edge of the address space

Two things are settled here for numbers of any size. Over a store that answers
whatever it likes, the region computes the address of the answer, the top and the size
without ever leaving the machine word, and treats as a refusal exactly what is no address.
Over a page count that may pass the end of the address space, a request may leave pages
behind although it failed, or be granted although the block ends past the last address.
This happens exactly if the pages that are added end past the address space, so never
over a count whose limit lies within it.
-/
namespace RegionHeap.Growth.Linear

variable {μ : Type} [PageStore μ] {region : Linear μ} {base : Nat} {delta : Int}

/-- The number with which the store answers a request for `delta` bytes. A refusal is the
largest word. -/
def numberFor (region : Linear μ) (delta : Int) : Nat :=
  (PageStore.grow (pagesFor delta) region.store).1.getD Word.max

/-- The region after its store was asked for `delta` bytes. -/
def asked (region : Linear μ) (delta : Int) : Linear μ :=
  { region with store := (PageStore.grow (pagesFor delta) region.store).2 }

/-- The record of the one call that a request for `delta` bytes makes to the store. -/
def call (region : Linear μ) (delta : Int) : Event :=
  .pagesAsked (pagesFor delta) (PageStore.grow (pagesFor delta) region.store).1

theorem pagesFor_le (h : delta ≤ Word.signedMax) : pagesFor delta ≤ 1 <<< 47 := by
  simp only [pagesFor, linearPageSize, Word.signedMax] at *
  omega

/-- The pages for some bytes have room for them, and one page less has not. -/
theorem pagesFor_spec (h : 0 < delta) :
    delta ≤ pagesFor delta * linearPageSize ∧
      pagesFor delta * linearPageSize < delta + linearPageSize := by
  simp only [pagesFor, linearPageSize]
  omega

/-- What the answer of the store means as an address: a refusal is the largest page number,
and no page of that number has an address. -/
theorem bind_pageAddress?_eq (base : Nat) (answer : Option Nat) :
    answer.bind (pageAddress? base) =
      if base + answer.getD Word.max * linearPageSize < Word.max then
        some (base + answer.getD Word.max * linearPageSize)
      else none := by
  cases answer with
  | none =>
    have hmax : Word.max ≤ Word.max * linearPageSize := Nat.le_mul_of_pos_right _ (by decide)
    rw [Option.bind_none, Option.getD_none, if_neg (by omega)]
  | some page => rw [Option.bind_some, Option.getD_some, pageAddress?_eq]

/-- What the numbers of a region are whose memory starts at `base`, for all its requests. -/
structure Exact (region : Linear μ) (base : Nat) : Prop where
  /-- Nothing is asked for, and nobody is told. -/
  negative : ∀ delta : Int, delta < 0 → Provider.grow delta region = .ok ⟨none, region, []⟩
  empty : Provider.grow 0 region = .ok ⟨region.top, region, []⟩
  /-- Rounding up never leaves the word. -/
  pages : ∀ delta : Int, 0 < delta → delta ≤ Word.signedMax →
    1 ≤ pagesFor delta ∧ pagesFor delta ≤ 1 <<< 47 ∧
      delta ≤ pagesFor delta * linearPageSize ∧
      pagesFor delta * linearPageSize < delta + linearPageSize ∧
      Word.roundUp delta.toNat linearPageSize = .ok (some (pagesFor delta * linearPageSize))
  refused : ∀ delta : Int, 0 < delta → delta ≤ Word.signedMax →
    region.numberFor delta = Word.max ∨
        Word.max ≤ base + region.numberFor delta * linearPageSize →
    Provider.grow delta region = .ok ⟨none, region.asked delta, [region.call delta]⟩
  granted : ∀ delta : Int, 0 < delta → delta ≤ Word.signedMax →
    region.numberFor delta ≠ Word.max →
    base + region.numberFor delta * linearPageSize < Word.max →
    Provider.grow delta region =
      .ok ⟨some (base + region.numberFor delta * linearPageSize), region.asked delta,
        region.call delta :: (region.observer.map
          (Event.noticed · (base + region.numberFor delta * linearPageSize)
            (pagesFor delta * linearPageSize))).toList⟩
  top : region.top =
    if base + PageStore.size region.store * linearPageSize < Word.max then
      some (base + PageStore.size region.store * linearPageSize)
    else none
  regionSize : region.regionSize = min (PageStore.size region.store * linearPageSize) Word.max
  /-- Where there is a top, the size has not been cut. -/
  agree : ∀ top, region.top = some top →
    region.regionSize = PageStore.size region.store * linearPageSize ∧
      top = base + region.regionSize

theorem regionSize_of_top {top : Nat} (h : region.top = some top) :
    region.regionSize = PageStore.size region.store * linearPageSize ∧
      top = PageStore.base region.store + region.regionSize := by
  rw [top_eq, Option.ite_none_right_eq_some, Option.some.injEq, stop] at h
  obtain ⟨haddress, rfl⟩ := h
  have hsize : region.regionSize = PageStore.size region.store * linearPageSize :=
    Nat.min_eq_left (by omega)
  exact ⟨hsize, by rw [hsize]⟩

/-- Whatever a store answers, and be it numbers that do not agree with its size: no request
of at most the largest signed word leaves the machine word on the way. A request that is not
positive reaches no store. Any other is one call for the least number of pages that have room
for it, between one and `2 ^ 47`. It is refused exactly if the answer is the largest word or
the page of that number would start at the largest word or beyond; otherwise the answer is
where that page starts, and the observer, if there is one, is told once of that address and
the bytes of those pages. -/
theorem exact_of_base (hbase : PageStore.base region.store = base)
    (hstays : ∀ pages, PageStore.base (PageStore.grow pages region.store).2 = base) :
    Exact region base := by
  have haddress : ∀ delta, (PageStore.grow (pagesFor delta) region.store).1.bind
      (pageAddress? (PageStore.base (PageStore.grow (pagesFor delta) region.store).2)) =
        if base + region.numberFor delta * linearPageSize < Word.max then
          some (base + region.numberFor delta * linearPageSize)
        else none := by
    intro delta
    rw [hstays, bind_pageAddress?_eq]
    rfl
  constructor
  case negative => exact fun _ => grow_of_neg
  case empty => exact grow_zero
  case pages =>
    intro delta hpos hsigned
    obtain ⟨hroom, hleast⟩ := pagesFor_spec hpos
    exact ⟨pagesFor_pos hpos, pagesFor_le hsigned, hroom, hleast, roundUp_pagesFor hpos hsigned⟩
  case refused =>
    intro delta hpos hsigned hanswer
    have hnone : ¬base + region.numberFor delta * linearPageSize < Word.max := by
      rcases hanswer with hmax | hpast
      · have hle : Word.max ≤ Word.max * linearPageSize := Nat.le_mul_of_pos_right _ (by decide)
        rw [hmax]
        omega
      · omega
    have hgrow : Provider.grow delta region = _ := grow_of_pos hpos hsigned
    rw [growPages_of_none ((haddress delta).trans (if_neg hnone))] at hgrow
    exact hgrow
  case granted =>
    intro delta hpos hsigned _ hsome
    have hgrow : Provider.grow delta region = _ := grow_of_pos hpos hsigned
    rw [growPages_of_some ((haddress delta).trans (if_pos hsome))] at hgrow
    exact hgrow
  case top =>
    rw [top_eq, stop, hbase]
  case regionSize => rfl
  case agree =>
    intro top htop
    rw [← hbase]
    exact regionSize_of_top htop

/-- Three pages, and an answer far above them: the page that it names starts one byte below
the largest word. -/
def overstated : Linear ScriptedPages := ⟨⟨65534, 3, [(1 <<< 48) - 1]⟩, some ⟨"a"⟩⟩

theorem exact_of_base_overstated :
    (∀ pages, PageStore.base (PageStore.grow pages overstated.store).2 = 65534) ∧
    Exact overstated 65534 ∧ overstated.top = some 262142 ∧
    Provider.grow 1 overstated = .ok ⟨some (Word.max - 1), overstated.asked 1,
      [.pagesAsked 1 (some ((1 <<< 48) - 1)), .noticed ⟨"a"⟩ (Word.max - 1) 65536]⟩ := by
  have hstays : ∀ pages, PageStore.base (PageStore.grow pages overstated.store).2 = 65534 :=
    fun _ => rfl
  have hexact : Exact overstated 65534 := exact_of_base rfl hstays
  exact ⟨hstays, hexact, hexact.top.trans (by decide),
    hexact.granted 1 (by decide) (by decide) (by decide) (by decide)⟩

/-! ### Counted pages -/

section counted

variable {region : Linear PageCounter}

/-- A request leaves no trace if it is refused, and its block ends within the address space
if it is granted. -/
def AllOrNothing (region : Linear PageCounter) (delta : Int) : Prop :=
  ∃ reply, Provider.grow delta region = .ok reply ∧
    (reply.answer = none ∧ PageStore.size reply.state.store = PageStore.size region.store ∧
        reply.state.regionSize = region.regionSize ∨
      ∃ base, reply.answer = some base ∧ base + pagesFor delta * linearPageSize ≤ Word.bound)

/-- The region with that many more pages. -/
def enlarged (region : Linear PageCounter) (pages : Nat) : Linear PageCounter :=
  { region with store := { region.store with pages := region.store.pages + pages } }

theorem stop_enlarged (region : Linear PageCounter) (pages : Nat) :
    (region.enlarged pages).stop = region.stop + pages * linearPageSize := by
  rw [stop, stop, Nat.add_assoc, ← Nat.add_mul]
  rfl

theorem stop_enlarged_le {pages : Nat} (h : region.store.HasRoom pages)
    (hlimit : region.store.base + region.store.limit * linearPageSize ≤ Word.bound) :
    (region.enlarged pages).stop ≤ Word.bound :=
  Nat.le_trans (Nat.add_le_add_left (Nat.mul_le_mul_right _ h.2) _) hlimit

/-- What becomes of a request for `delta` bytes over a page count. -/
inductive Landed (region : Linear PageCounter) (delta : Int) : Prop
  /-- There is no room, and nothing happens. -/
  | refused : ¬region.store.HasRoom (pagesFor delta) →
      Provider.grow delta region =
        .ok ⟨none, region, [.pagesAsked (pagesFor delta) none]⟩ →
      Landed region delta
  /-- The old top is no address, so the request fails, but the pages have been added. -/
  | lost : region.store.HasRoom (pagesFor delta) → Word.max ≤ region.stop →
      Provider.grow delta region = .ok ⟨none, region.enlarged (pagesFor delta),
        [.pagesAsked (pagesFor delta) (some region.store.pages)]⟩ →
      Landed region delta
  /-- The old top is the answer, wherever the new one is. -/
  | given : region.store.HasRoom (pagesFor delta) → region.stop < Word.max →
      Provider.grow delta region = .ok ⟨some region.stop, region.enlarged (pagesFor delta),
        .pagesAsked (pagesFor delta) (some region.store.pages) ::
          (region.observer.map
            (Event.noticed · region.stop (pagesFor delta * linearPageSize))).toList⟩ →
      Landed region delta

theorem growPages_of_room {pages : Nat} (hpos : 0 < pages) (hroom : region.store.HasRoom pages) :
    region.growPages (pages * linearPageSize) =
      ⟨region.top, region.enlarged pages, .pagesAsked pages (some region.store.pages) ::
        (region.top.bind fun top =>
          region.observer.map (Event.noticed · top (pages * linearPageSize))).toList⟩ := by
  have hstore := PageCounter.grow_of_pos region.store hpos
  rw [if_pos hroom] at hstore
  have hfirst : (PageStore.grow pages region.store).1 = some (PageStore.size region.store) := by
    rw [hstore]
    rfl
  have hbase : PageStore.base (PageStore.grow pages region.store).2 =
      PageStore.base region.store := by
    rw [hstore]
    rfl
  have haddress : (PageStore.grow pages region.store).1.bind
      (pageAddress? (PageStore.base (PageStore.grow pages region.store).2)) = region.top := by
    rw [hfirst, Option.bind_some, hbase, top]
  cases htop : region.top with
  | none =>
    rw [growPages_of_none (haddress.trans htop), hstore]
    rfl
  | some top =>
    rw [growPages_of_some (haddress.trans htop), hstore]
    rfl

theorem landed (hpos : 0 < delta) (hsigned : delta ≤ Word.signedMax) : Landed region delta := by
  have hgrow : Provider.grow delta region = _ := grow_of_pos hpos hsigned
  have hpages := pagesFor_pos hpos
  by_cases hroom : region.store.HasRoom (pagesFor delta)
  · rw [growPages_of_room hpages hroom, top_eq] at hgrow
    by_cases hstop : region.stop < Word.max
    · rw [if_pos hstop] at hgrow
      exact .given hroom hstop hgrow
    · rw [if_neg hstop] at hgrow
      exact .lost hroom (Nat.le_of_not_lt hstop) hgrow
  · have hstore := PageCounter.grow_of_pos region.store hpages
    rw [if_neg hroom] at hstore
    rw [growPages_refused (by rw [hstore]), hstore] at hgrow
    exact .refused hroom hgrow

theorem stop_lt_of_enlarged (hpos : 0 < delta)
    (h : (region.enlarged (pagesFor delta)).stop ≤ Word.bound) : region.stop < Word.max := by
  have hpage := Nat.mul_le_mul_right linearPageSize (pagesFor_pos hpos)
  have hspan : Word.bound < Word.max + 1 * linearPageSize := by decide
  rw [stop_enlarged] at h
  omega

theorem allOrNothing_of_grow {reply : Reply (Option Nat) (Linear PageCounter)}
    (h : Provider.grow delta region = .ok reply) :
    region.AllOrNothing delta ↔
      (reply.answer = none ∧ PageStore.size reply.state.store = PageStore.size region.store ∧
          reply.state.regionSize = region.regionSize ∨
        ∃ base, reply.answer = some base ∧ base + pagesFor delta * linearPageSize ≤ Word.bound) :=
  ⟨fun ⟨_, hsame, hends⟩ => Except.ok.inj (h.symm.trans hsame) ▸ hends,
    fun hends => ⟨reply, h, hends⟩⟩

theorem allOrNothing_iff (hpos : 0 < delta) (hsigned : delta ≤ Word.signedMax) :
    region.AllOrNothing delta ↔
      (region.store.HasRoom (pagesFor delta) →
        (region.enlarged (pagesFor delta)).stop ≤ Word.bound) := by
  have hpages := pagesFor_pos hpos
  cases landed hpos hsigned with
  | refused hnone hgrow =>
    rw [allOrNothing_of_grow hgrow]
    exact iff_of_true (.inl ⟨rfl, rfl, rfl⟩) fun hroom => absurd hroom hnone
  | lost hroom hstop hgrow =>
    -- The failure has used pages up, and they lie where no address is.
    rw [allOrNothing_of_grow hgrow]
    refine iff_of_false ?_ fun hends => ?_
    · rintro (⟨-, hsize, -⟩ | ⟨base, hanswer, -⟩)
      · have hgrew : region.store.pages + pagesFor delta = region.store.pages := hsize
        omega
      · cases hanswer
    · exact absurd (stop_lt_of_enlarged hpos (hends hroom)) (Nat.not_lt.mpr hstop)
  | given hroom _ hgrow =>
    rw [allOrNothing_of_grow hgrow, stop_enlarged]
    constructor
    · rintro (⟨hanswer, -⟩ | ⟨base, hanswer, hends⟩) _
      · cases hanswer
      · rwa [Option.some.inj hanswer]
    · exact fun hends => .inr ⟨_, rfl, hends hroom⟩

/-- Over a page count with any base, size and limit, a positive request is refused without a
trace exactly if there is no room for its pages. Otherwise the pages are added, and the old
top is the answer if it is an address; if it is none, the request fails all the same. So a
request is all or nothing exactly if pages that are added end within the address space, and
it always is if the limit lies within the address space. -/
theorem landing_of_counted (hpos : 0 < delta) (hsigned : delta ≤ Word.signedMax) :
    Landed region delta ∧
      (region.AllOrNothing delta ↔
        (region.store.HasRoom (pagesFor delta) →
          (region.enlarged (pagesFor delta)).stop ≤ Word.bound)) ∧
      (region.store.base + region.store.limit * linearPageSize ≤ Word.bound →
        region.AllOrNothing delta) := by
  have hiff : region.AllOrNothing delta ↔ _ := allOrNothing_iff hpos hsigned
  exact ⟨landed hpos hsigned, hiff,
    fun hlimit => hiff.mpr fun hroom => stop_enlarged_le hroom hlimit⟩

/-- The last page below the end of the address space is gained, and the next is refused. -/
theorem landing_of_counted_last :
    Landed ⟨⟨0, 1 <<< 48, (1 <<< 48) - 1⟩, none⟩ 65536 ∧
      AllOrNothing ⟨⟨0, 1 <<< 48, (1 <<< 48) - 1⟩, none⟩ 65536 ∧
      AllOrNothing ⟨⟨0, 1 <<< 48, (1 <<< 48) - 1⟩, none⟩ 65537 := by
  obtain ⟨hlanded, hiff, -⟩ := landing_of_counted
    (show (0 : Int) < 65536 by decide) (show (65536 : Int) ≤ Word.signedMax by decide)
  obtain ⟨-, -, hnext⟩ := landing_of_counted
    (show (0 : Int) < 65537 by decide) (show (65537 : Int) ≤ Word.signedMax by decide)
  exact ⟨hlanded, hiff.mpr (fun _ => by decide), hnext (by decide)⟩

/-- Beyond the end of the address space a failure may use up pages, and a block may end
where no address is. -/
theorem not_allOrNothing_past_end :
    ¬AllOrNothing ⟨⟨0, (1 <<< 48) + 1, 1 <<< 48⟩, none⟩ 1 ∧
      ¬AllOrNothing ⟨⟨0, (1 <<< 48) + 1, (1 <<< 48) - 1⟩, none⟩ 131072 := by
  constructor
  · rw [allOrNothing_iff (by decide) (by decide)]
    exact fun h => absurd (h (by decide)) (by decide)
  · rw [allOrNothing_iff (by decide) (by decide)]
    exact fun h => absurd (h (by decide)) (by decide)

end counted

end RegionHeap.Growth.Linear
