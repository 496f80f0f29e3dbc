import Mathlib.Data.Option.Basic
import RegionHeap.Proofs.Sized.Contract
import RegionHeap.Proofs.Sized.FreeSpace
import RegionHeap.Proofs.Word

/-!
# The top-space allocator keeps its contract

Between two steps the free space and the cells are arranged below the end of the
top; within a step there may also be loose spans, which were taken and are not
yet used. From this follows the contract of a sized allocator, over any source
and with any memory: the source may grant what it likes, because a grant that
reaches below an earlier one is not used. A refusal is given with the state
from before the request, so the allocator is firm.
-/
namespace RegionHeap.Sized.TopSpace

open Checked
open Growth (Grant Provider)

variable {s s' found : TopSpace} {loose : List Span} {span : Span} {free : FreeSpace}
  {length total align base : Nat} {m m' : Memory} {block : Block}

/-- Free space, cells and loose spans are arranged below the end of the top. -/
structure Tidy (s : TopSpace) (loose : List Span) : Prop where
  arranged : Arranged (loose ++ s.free.spans) s.cells s.free.top.stop
  below : s.free.top.stop ≤ s.stop
  word : s.stop ≤ Word.bound

theorem tidy_empty : Tidy {} [] where
  arranged := by
    constructor
    case proper =>
      intro span hmem
      obtain rfl : span = ⟨0, 0⟩ := by simpa [FreeSpace.spans] using hmem
      exact ⟨rfl, rfl, Nat.le_refl _, Nat.le_refl _⟩
    case disjoint => simp [FreeSpace.spans]
    all_goals simp
  below := Nat.le_refl _
  word := Nat.zero_le _

section lengths

theorem le_cellLength (total : Nat) : total + 8 ≤ cellLength total :=
  Nat.le_trans (Word.le_ceiling (total + 8) (by decide)) (Nat.le_max_right _ _)

theorem cellLength_mod (total : Nat) : cellLength total % 16 = 0 := by
  have hceiling := Word.ceiling_mod (total + 8) 16
  simp only [cellLength, Span.least]
  omega

theorem maxRequest_eq : maxRequest = 18446744073709485977 := rfl

theorem bound_eq : Word.bound = 18446744073709551616 := rfl

/-- A request that is tried leaves room for the margin of a grant. -/
theorem growthFor_lt (h : exceeds total align = false) :
    growthFor (cellLength (request total align)) < Word.bound := by
  simp only [exceeds, Bool.or_eq_false_iff, decide_eq_false_iff_not, Nat.not_le] at h
  rcases h with ⟨-, hrequest⟩
  generalize request total align = size at *
  have hceiling := Word.ceiling_lt (size + 8) (show 0 < 16 by decide)
  have hmultiple := Word.ceiling_mod (size + 8) 16
  have hgrowth := Word.ceiling_lt (cellLength size + 96) (show 0 < 65536 by decide)
  have hpages := Word.ceiling_mod (cellLength size + 96) 65536
  rw [maxRequest_eq] at hrequest
  rw [bound_eq]
  simp only [growthFor, cellLength, Span.least] at *
  omega

theorem growthFor_pos (length : Nat) : 0 < growthFor length :=
  Nat.lt_of_lt_of_le (Nat.add_pos_right length (by decide)) (Word.le_ceiling _ (by decide))

end lengths

namespace Tidy

theorem take {rest : FreeSpace} (h : s.Tidy []) (htake : s.free.Takes length span rest)
    (hmultiple : length % 16 = 0) : Tidy { s with free := rest } [span] := by
  have hstop : rest.top.stop = s.free.top.stop := htake.choose_spec.choose_spec.choose_spec.2.2.2
  refine ⟨?_, hstop ▸ h.below, h.word⟩
  rw [hstop]
  exact htake.arranged h.arranged hmultiple

theorem give (h : s.Tidy (span :: loose)) : Tidy { s with free := s.free.give span } loose := by
  have hstop : (s.free.give span).top.stop = s.free.top.stop :=
    FreeSpace.top_stop_give (h.arranged.proper List.mem_cons_self).below fun other hmem =>
      (h.arranged.proper (List.mem_cons_of_mem _ (List.mem_append_right _ hmem))).below
  refine ⟨?_, hstop ▸ h.below, h.word⟩
  rw [hstop]
  exact FreeSpace.arranged_give h.arranged

theorem join {other : Span} (h : s.Tidy (span :: other :: loose)) (hmeets : span.Meets other) :
    s.Tidy (span.join other :: loose) :=
  ⟨h.arranged.join hmeets, h.below, h.word⟩

theorem drop (h : s.Tidy (span :: loose)) : s.Tidy loose :=
  ⟨h.arranged.of_subperm (List.sublist_cons_self _ _).subperm, h.below, h.word⟩

theorem giveAny (h : s.Tidy (span :: loose)) :
    Tidy { s with free := s.free.giveAny span } loose := by
  unfold FreeSpace.giveAny
  split
  · exact h.give
  · exact h.drop

theorem split (h : s.Tidy (span :: loose)) {middle : Nat} (hmultiple : middle % 16 = 0)
    (hstart : span.start ≤ middle) (hstop : middle ≤ span.stop) :
    s.Tidy (⟨span.start, middle⟩ :: ⟨middle, span.stop⟩ :: loose) :=
  ⟨h.arranged.split hmultiple hstart hstop, h.below, h.word⟩

theorem swap {other : Span} (h : s.Tidy (span :: other :: loose)) :
    s.Tidy (other :: span :: loose) :=
  ⟨h.arranged.perm (List.Perm.swap ..), h.below, h.word⟩

theorem stretchTop (h : s.Tidy []) {stop limit : Nat} (hup : s.free.top.stop ≤ limit)
    (hmultiple : limit % 16 = 0) (hlimit : limit ≤ stop) (hword : stop ≤ Word.bound) :
    Tidy { s with free := s.free.stretchTop limit, stop := stop } [] := by
  refine ⟨?_, hlimit, hword⟩
  have harranged : Arranged s.free.spans s.cells s.free.top.stop := h.arranged
  have htop : s.free.top.Proper s.free.top.stop := harranged.proper (by simp [FreeSpace.spans])
  -- The new end of the top is a span of its own before it is joined with the top.
  have hpiece : Span.Proper ⟨s.free.top.stop, limit⟩ limit :=
    ⟨htop.stop, hmultiple, hup, Nat.le_refl _⟩
  have habove := harranged.above (Nat.le_refl _) hpiece
  have hspans : (⟨s.free.top.stop, limit⟩ :: s.free.spans).Perm
      (s.free.top :: ⟨s.free.top.stop, limit⟩ :: (s.free.holes ++ s.free.spare.toList)) := by
    apply List.perm_iff_count.mpr
    intro other
    simp only [FreeSpace.spans, List.count_cons, List.count_append, List.count_nil]
    omega
  have hjoined := (habove.perm hspans).join ⟨Nat.le_trans htop.forward hup, Nat.le_refl _⟩
  have htopJoined : s.free.top.join ⟨s.free.top.stop, limit⟩ = ⟨s.free.top.start, limit⟩ := by
    have hforward : s.free.top.start ≤ s.free.top.stop := htop.forward
    rw [Span.join, Nat.min_eq_left hforward, Nat.max_eq_right hup]
  rw [htopJoined] at hjoined
  refine hjoined.perm (List.perm_iff_count.mpr fun other => ?_)
  simp only [FreeSpace.spans, FreeSpace.stretchTop, List.nil_append, List.count_cons,
    List.count_append, List.count_nil]
  omega

theorem replaceTop (h : s.Tidy []) {top : Span} {stop : Nat} (hup : s.free.top.stop ≤ top.start)
    (proper : top.Proper top.stop) (htop : top.stop ≤ stop) (hword : stop ≤ Word.bound) :
    Tidy { s with free := s.free.replaceTop top, stop := stop } [] := by
  refine ⟨?_, htop, hword⟩
  have harranged : Arranged s.free.spans s.cells s.free.top.stop := h.arranged
  refine (harranged.above hup proper).of_subperm (List.subperm_ext_iff.mpr fun other _ => ?_)
  simp only [FreeSpace.spans, FreeSpace.replaceTop, List.nil_append, List.count_cons,
    List.count_append, List.count_nil]
  split
  · omega
  · rw [List.count_cons]
    omega

/-- A grant moves the end of the top, or starts another top above everything. -/
theorem extend {grant : Grant} (h : s.Tidy []) (hextend : s.extend? grant = some s') :
    s'.Tidy [] ∧ s'.cells = s.cells := by
  have hbelow := h.below
  unfold extend? at hextend
  simp only [Option.bind_eq_bind, Option.bind_eq_some_iff, Option.pure_def,
    Option.guard_eq_some'] at hextend
  rcases hextend with ⟨_, ⟨-, hlater, hword⟩, hextend⟩
  split at hextend
  · simp only [Option.bind_eq_some_iff, Option.guard_eq_some', Option.some.injEq] at hextend
    rcases hextend with ⟨_, hlimit, rfl⟩
    exact ⟨h.stretchTop (Nat.le_of_lt hlimit) (by omega) (by omega) hword, rfl⟩
  · simp only [Option.bind_eq_some_iff, Option.guard_eq_some', Option.some.injEq] at hextend
    rcases hextend with ⟨_, hlimit, rfl⟩
    have hstart := Word.le_ceiling (grant.base + 16) (show 0 < 16 by decide)
    have hmultiple := Word.ceiling_mod (grant.base + 16) 16
    refine ⟨h.replaceTop (Nat.le_trans hbelow ?_) ⟨hmultiple, ?_, Nat.le_of_lt hlimit, ?_⟩ ?_ hword,
      rfl⟩
    all_goals simp only
    all_goals omega

theorem fresh (h : s.Tidy (span :: loose)) (hlength : span.start < span.stop) :
    s.cells[span.start]? = none := by
  cases hcell : s.cells[span.start]? with
  | none => rfl
  | some cell =>
    have hroom := (h.arranged.cell hcell).room
    have hbeside := h.arranged.beside hcell List.mem_cons_self
    exact absurd ⟨Nat.le_refl _, hlength⟩
      (hbeside span.start ⟨Nat.le_refl _, by simp only [Cell.span]; omega⟩)

theorem occupy (h : s.Tidy (span :: loose)) {cell : Cell} {cells : Std.TreeMap Nat Cell}
    (hlength : span.start + cell.length = span.stop) (hpower : Word.isPowerOfTwo cell.align)
    (haligned : span.start % cell.align = 0) (hroom : cell.total + 8 ≤ cell.length)
    (hcells : ∀ address : Nat,
      cells[address]? = if span.start = address then some cell else s.cells[address]?) :
    Tidy { s with cells := cells } loose := by
  have proper : span.Proper s.free.top.stop := h.arranged.proper List.mem_cons_self
  have hspan : cell.span span.start = span := by rw [Cell.span, hlength]
  exact ⟨h.arranged.occupy ⟨hspan ▸ proper, hpower, haligned, hroom⟩ hspan hcells, h.below, h.word⟩

theorem erase (h : s.Tidy loose) {cell : Cell} (hcell : s.cells[base]? = some cell) :
    Tidy { s with cells := s.cells.erase base } (cell.span base :: loose) :=
  ⟨h.arranged.vacate hcell, h.below, h.word⟩

end Tidy

/-- A span that is taken is long enough, and nothing else happens to the cells. -/
theorem takeSpan_all (h : s.Tidy []) (hmultiple : length % 16 = 0) :
    (s.takeSpan length).All fun result => ∀ span found, result = some (span, found) →
      found.Tidy [span] ∧ found.cells = s.cells ∧ length ≤ span.length := by
  unfold takeSpan
  split
  · rename_i span free htake
    intro _ _ hgiven
    cases hgiven
    have htakes := FreeSpace.takes_take? htake
    exact ⟨h.take htakes hmultiple, rfl, htakes.length_le⟩
  · intro grant span found hresult
    simp only [Option.bind_eq_bind, Option.bind_eq_some_iff, Option.pure_def, Option.some.injEq,
      Prod.mk.injEq] at hresult
    rcases hresult with ⟨given, rfl, extended, hextend, ⟨taken, free⟩, htake, rfl, rfl⟩
    obtain ⟨tidy, hcells⟩ := h.extend hextend
    have htakes := FreeSpace.takes_takeTop? htake
    exact ⟨tidy.take htakes hmultiple, hcells, htakes.length_le⟩

theorem alignedBase_spec (start : Nat) (halign : 0 < align) :
    alignedBase start align % align = 0 ∧ start ≤ alignedBase start align ∧
      alignedBase start align ≤ start + align + Span.least := by
  have hle := Word.le_ceiling start halign
  have hlt := Word.ceiling_lt start halign
  have hmod := Word.ceiling_mod start align
  unfold alignedBase
  split
  · exact ⟨‹_›, Nat.le_refl _, by omega⟩
  · split
    · exact ⟨by rw [Nat.add_mod_right, hmod], by omega, by omega⟩
    · exact ⟨hmod, hle, by omega⟩

/-- A placed block is aligned and has room, and what lies beside it is free again. -/
theorem tidy_place (h : s.Tidy [span]) (hpower : Word.isPowerOfTwo align)
    (hbig : Word.minAlign < align) (hlength : cellLength (request total align) ≤ span.length) :
    Tidy { s with free := (place total align span s.free).2 } [(place total align span s.free).1] ∧
      (place total align span s.free).1.start % align = 0 ∧
      cellLength total ≤ (place total align span s.free).1.length := by
  obtain ⟨haligned, hstart, hroom⟩ :=
    alignedBase_spec span.start (Word.pos_of_isPowerOfTwo hpower)
  have hmultiple : alignedBase span.start align % 16 = 0 := by
    have hdvd := Word.dvd_of_isPowerOfTwo (a := 16) (by decide) hpower (Nat.le_of_lt hbig)
    exact Nat.mod_eq_zero_of_dvd (Nat.dvd_trans hdvd (Nat.dvd_of_mod_eq_zero haligned))
  have hrequest := le_cellLength (request total align)
  have hcell := cellLength_mod total
  have proper : span.Proper s.free.top.stop := h.arranged.proper List.mem_cons_self
  have hstop := proper.stop
  have hbase : alignedBase span.start align + cellLength total ≤ span.stop := by
    rw [request, if_neg (Nat.not_le.mpr hbig)] at hlength hrequest
    simp only [Span.length, Span.least] at *
    omega
  have hcellStop : alignedBase span.start align + cellLength total ≤
        cellStop (alignedBase span.start align) (cellLength total) span.stop ∧
      cellStop (alignedBase span.start align) (cellLength total) span.stop ≤ span.stop ∧
      cellStop (alignedBase span.start align) (cellLength total) span.stop % 16 = 0 := by
    unfold cellStop
    split
    · exact ⟨hbase, Nat.le_refl _, hstop⟩
    · exact ⟨Nat.le_refl _, hbase, by omega⟩
  rcases hcellStop with ⟨hlow, hhigh, hmultipleStop⟩
  -- The span is split before and behind the cell, and both ends are given back.
  have hparted := h.split hmultiple hstart (by omega)
  have hplaced := hparted.giveAny.split hmultipleStop (by simp only; omega) hhigh
  refine ⟨hplaced.swap.giveAny, haligned, ?_⟩
  simp only [place, Span.length]
  omega

/-- A block is entered at a base where none was before, or only the one at `gone`,
which is struck out. -/
structure Entered (s : TopSpace) (gone : Option Nat) (total align base : Nat) (s' : TopSpace) :
    Prop where
  tidy : s'.Tidy []
  fresh : s.cells[base]? = none ∨ gone = some base
  cells : ∃ length, ∀ address : Nat, s'.cells[address]? =
    if base = address then some ⟨total, align, length⟩
    else if gone = some address then none else s.cells[address]?

theorem entered_occupy (h : s.Tidy [span]) (hpower : Word.isPowerOfTwo align)
    (hlength : cellLength (request total align) ≤ span.length) :
    s.Entered none total align (s.occupy total align span).1 (s.occupy total align span).2 := by
  unfold occupy
  by_cases hsmall : align ≤ Word.minAlign
  · have hroom := le_cellLength total
    have proper : span.Proper s.free.top.stop := h.arranged.proper List.mem_cons_self
    have haligned : span.start % align = 0 := by
      have hdvd := Word.dvd_of_isPowerOfTwo hpower (b := 16) (by decide) hsmall
      exact Nat.mod_eq_zero_of_dvd (Nat.dvd_trans hdvd (Nat.dvd_of_mod_eq_zero proper.start))
    rw [request, if_pos hsmall] at hlength
    simp only [hsmall, if_true]
    have hfits : span.start + span.length = span.stop := Nat.add_sub_cancel' proper.forward
    refine ⟨h.occupy hfits hpower haligned (Nat.le_trans hroom hlength)
      fun _ => Record.getElem?_insert, .inl (h.fresh ?_), _, fun _ => Record.getElem?_insert⟩
    omega
  · obtain ⟨tidy, haligned, hplaced⟩ := tidy_place h hpower (Nat.lt_of_not_le hsmall) hlength
    have hroom := le_cellLength total
    simp only [hsmall, if_false]
    have hforward : (place total align span s.free).1.Forward :=
      (tidy.arranged.proper List.mem_cons_self).forward
    have hfits := Nat.add_sub_cancel' hforward
    refine ⟨tidy.occupy hfits hpower haligned (Nat.le_trans hroom hplaced)
      fun _ => Record.getElem?_insert, .inl (tidy.fresh ?_), _, fun _ => Record.getElem?_insert⟩
    simp only [Span.length] at hplaced
    omega

/-- A new block is entered, or the state is the one from before the request. -/
theorem acquire_all (h : s.Tidy []) (hpower : Word.isPowerOfTwo align) (cleared : Bool) :
    (acquire cleared total align s m).All fun outcome =>
      match outcome.base with
      | none => outcome.state = s ∧ outcome.memory = m
      | some base => s.Entered none total align base outcome.state ∧
        outcome.memory = if cleared then m.fill base total 0 else m := by
  by_cases hexceeds : exceeds total align
  · rw [acquire, if_pos hexceeds]
    exact ⟨rfl, rfl⟩
  · rw [acquire, if_neg hexceeds]
    refine Dialogue.All.map ((takeSpan_all h (cellLength_mod _)).mono ?_)
    intro hcase htaken
    rcases hcase with _ | ⟨span, found⟩
    · exact ⟨rfl, rfl⟩
    · obtain ⟨tidy, hcells, hlength⟩ := htaken span found rfl
      have entered := entered_occupy tidy hpower hlength
      exact ⟨⟨entered.tidy, hcells ▸ entered.fresh, hcells ▸ entered.cells⟩, rfl⟩

theorem takeSpan_asks {p : Nat → Prop} (hgrowth : p (growthFor length)) :
    (s.takeSpan length).Asks p := by
  unfold takeSpan
  split
  · trivial
  · exact ⟨hgrowth, fun _ => trivial⟩

/-- What is missing for a block is a word, and never nothing. -/
theorem acquire_asks (cleared : Bool) :
    (acquire cleared total align s m).Asks fun bytes => 0 < bytes ∧ bytes < Word.bound := by
  unfold acquire
  split
  · trivial
  · rename_i h
    exact (takeSpan_asks ⟨growthFor_pos _, growthFor_lt (Bool.eq_false_iff.mpr h)⟩).map _

theorem resize_asks {dialogue : Dialogue (Outcome TopSpace)}
    (h : resize block total s m = .ok dialogue) :
    dialogue.Asks fun bytes => 0 < bytes ∧ bytes < Word.bound := by
  obtain ⟨cell, _, h⟩ := bind_eq_ok.mp h
  have hmove : (s.move m block cell total).Asks fun bytes => 0 < bytes ∧ bytes < Word.bound :=
    (acquire_asks false).map _
  dsimp only at h
  split at h
  · cases h
    trivial
  · split at h
    · cases h
      exact hmove
    · split at h
      · cases h
        trivial
      · split at h
        · cases h
          trivial
        · cases h
          exact hmove

theorem live_iff : Allocator.Live s block ↔
    ∃ length, s.cells[block.base]? = some ⟨block.total, block.align, length⟩ := by
  change (∃ cell, s.cell? block = some cell) ↔ _
  simp only [cell?, Option.filter_eq_some_iff, decide_eq_true_eq]
  constructor
  · intro hparts
    rcases hparts with ⟨⟨total, align, length⟩, hcell, rfl, rfl⟩
    exact ⟨length, hcell⟩
  · intro ⟨length, hcell⟩
    exact ⟨_, hcell, rfl, rfl⟩

theorem eq_of_live {other : Block} (h : Allocator.Live s block) (hother : Allocator.Live s other)
    (hbase : block.base = other.base) : block = other := by
  obtain ⟨length, hcell⟩ := live_iff.mp h
  obtain ⟨lengthOther, hcellOther⟩ := live_iff.mp hother
  rcases block with ⟨base, total, align⟩
  rcases other with ⟨_, totalOther, alignOther⟩
  obtain rfl : base = _ := hbase
  simp only at hcell hcellOther
  rw [hcell] at hcellOther
  simp only [Option.some.injEq, Cell.mk.injEq] at hcellOther
  rcases hcellOther with ⟨rfl, rfl, -⟩
  rfl

theorem Tidy.apart {other : Block} (h : s.Tidy loose) (hlive : Allocator.Live s block)
    (hother : Allocator.Live s other) (hne : block.base ≠ other.base) : block.Apart other := by
  obtain ⟨length, hcell⟩ := live_iff.mp hlive
  obtain ⟨lengthOther, hcellOther⟩ := live_iff.mp hother
  have hroom := (h.arranged.cell hcell).room
  have hroomOther := (h.arranged.cell hcellOther).room
  have hspans := (h.arranged.apart hcell hcellOther hne).le_or_le
  simp only [Cell.span] at hspans
  simp only [Block.Apart] at *
  omega

section entered

variable {old : Option Block} (hold : ∀ block ∈ old, Allocator.Live s block)
  (entered : s.Entered (old.map Block.base) total align base s')

include hold

theorem eq_old (hlive : Allocator.Live s block) (hbase : old.map Block.base = some block.base) :
    some block = old := by
  obtain ⟨other, rfl, heq⟩ := Option.map_eq_some_iff.mp hbase
  rw [eq_of_live hlive (hold other rfl) heq.symm]

include entered

theorem base_ne (hlive : Allocator.Live s block) (hne : some block ≠ old) : base ≠ block.base := by
  intro heq
  subst heq
  rcases entered.fresh with hfresh | hgone
  · obtain ⟨_, hcell⟩ := live_iff.mp hlive
    cases hfresh.symm.trans hcell
  · exact hne (eq_old hold hlive hgone)

theorem live_entered :
    Allocator.Live s' block ↔
      some block = some ⟨base, total, align⟩ ∨ Allocator.Live s block ∧ some block ≠ old := by
  obtain ⟨length, hcells⟩ := entered.cells
  constructor
  · intro hlive
    obtain ⟨_, hcell⟩ := live_iff.mp hlive
    rw [hcells] at hcell
    split at hcell
    · rename_i hbase
      rcases block with ⟨blockBase, blockTotal, blockAlign⟩
      simp only [Option.some.injEq, Cell.mk.injEq] at hbase hcell
      rcases hcell with ⟨rfl, rfl, -⟩
      exact .inl (hbase ▸ rfl)
    · split at hcell
      · cases hcell
      · rename_i hstays
        refine .inr ⟨live_iff.mpr ⟨_, hcell⟩, ?_⟩
        intro heq
        subst heq
        exact hstays rfl
  · intro hcase
    rcases hcase with hnew | ⟨hlive, hne⟩
    · obtain rfl := Option.some.inj hnew
      exact live_iff.mpr ⟨length, by rw [hcells, if_pos rfl]⟩
    · obtain ⟨lengthOld, hcell⟩ := live_iff.mp hlive
      refine live_iff.mpr ⟨lengthOld, ?_⟩
      rw [hcells, if_neg (base_ne hold entered hlive hne),
        if_neg fun hbase => hne (eq_old hold hlive hbase), hcell]

/-- An entered block is exchanged for the old one if the other live blocks keep their bytes. -/
theorem exchange_entered
    (hbytes : ∀ {other : Block}, Allocator.Live s other → some other ≠ old →
      Block.Apart ⟨base, total, align⟩ other →
      ∀ {address}, other.Has address → m'.byte address = m.byte address) :
    Exchange old (some ⟨base, total, align⟩) s m s' m' := by
  have hnew : Allocator.Live s' ⟨base, total, align⟩ := (live_entered hold entered).mpr (.inl rfl)
  have hapart : ∀ {other : Block}, Allocator.Live s other → some other ≠ old →
      Block.Apart ⟨base, total, align⟩ other := by
    intro other hother hne
    have hstays : Allocator.Live s' other := (live_entered hold entered).mpr (.inr ⟨hother, hne⟩)
    exact entered.tidy.apart hnew hstays (base_ne hold entered hother hne)
  constructor
  case live => exact fun block => live_entered hold entered
  case bytes => exact fun hlive hne _ hhas => hbytes hlive hne (hapart hlive hne) hhas
  case aligned =>
    intro block hblock
    obtain rfl := Option.some.inj hblock
    obtain ⟨length, hcell⟩ := live_iff.mp hnew
    exact (entered.tidy.arranged.cell hcell).aligned
  case bounded =>
    intro block hblock
    obtain rfl := Option.some.inj hblock
    obtain ⟨length, hcell⟩ := live_iff.mp hnew
    have proper := entered.tidy.arranged.cell hcell
    have hroom := proper.room
    have hbelow := proper.span.below
    have hstop := entered.tidy.below
    have hword := entered.tidy.word
    simp only [Cell.span] at *
    omega
  case apart =>
    intro block other hblock hother hne
    obtain rfl := Option.some.inj hblock
    exact hapart hother hne

end entered

theorem cellOf_eq_ok
    (hcell : s.cells[block.base]? = some ⟨block.total, block.align, length⟩) :
    s.cellOf block = .ok ⟨block.total, block.align, length⟩ := by
  simp [cellOf, cell?, hcell, Option.filter_some]

theorem release_spec (h : s.Tidy []) (hlive : Allocator.Live s block) (m : Memory) :
    ∃ s', release block s m = .ok (s', m) ∧ s'.Tidy [] ∧ Exchange (some block) none s m s' m := by
  obtain ⟨length, hcell⟩ := live_iff.mp hlive
  have hcellOf := cellOf_eq_ok hcell
  have tidy : Tidy (s.vacate block.base length) [] := (h.erase hcell).give
  refine ⟨s.vacate block.base length, by rw [release, hcellOf]; rfl, tidy, ?_⟩
  constructor
  case live =>
    intro other
    rw [live_iff, live_iff]
    change (∃ length', (s.cells.erase block.base)[other.base]? = _) ↔ _
    rw [Record.getElem?_erase]
    by_cases hbase : block.base = other.base
    · simp only [if_pos hbase, reduceCtorEq, exists_false, false_or, false_iff, not_and, not_not]
      exact fun hother => congrArg some (eq_of_live (live_iff.mpr hother) hlive hbase.symm)
    · have hne : some other ≠ some block := by
        intro heq
        exact hbase (congrArg Block.base (Option.some.inj heq)).symm
      simp [if_neg hbase, hne]
  case bytes => exact fun _ _ _ _ => rfl
  all_goals simp

structure Resettled (s : TopSpace) (m : Memory) (block : Block) (total : Nat)
    (outcome : Outcome TopSpace) (base : Nat) : Prop where
  entered : s.Entered (some block.base) total block.align base outcome.state
  memory : base = block.base ∧ outcome.memory = m ∨
    s.cells[base]? = none ∧ outcome.memory = m.copy base block.base (min block.total total)

/-- A cell that was struck out is entered again, with what is loose at its base. -/
theorem entered_again {stop : Nat} (tidy : Tidy ⟨free, s.cells.erase base, stop⟩ [span])
    (hstart : span.start = base) (hlength : base + length = span.stop)
    (hpower : Word.isPowerOfTwo align) (haligned : base % align = 0) (hroom : total + 8 ≤ length) :
    s.Entered (some base) total align base
      ⟨free, s.cells.insert base ⟨total, align, length⟩, stop⟩ := by
  subst hstart
  let cell : Cell := ⟨total, align, length⟩
  have hroom' : cell.total + 8 ≤ cell.length := hroom
  refine ⟨tidy.occupy hlength hpower haligned hroom' fun address => ?_, .inr rfl, length,
    fun address => ?_⟩
  · rw [Record.getElem?_insert, Record.getElem?_erase]
    split <;> rfl
  · rw [Record.getElem?_insert]
    simp only [Option.some.injEq]
    split <;> rfl

section resize

variable (h : s.Tidy []) (hcell : s.cells[block.base]? = some ⟨block.total, block.align, length⟩)

include h hcell

theorem entered_shrink (hroom : cellLength total ≤ length) :
    s.Entered (some block.base) total block.align block.base
      (s.shrink block ⟨block.total, block.align, length⟩ total (cellLength total)) := by
  have proper := h.arranged.cell hcell
  have htotal := le_cellLength total
  have herased := h.erase hcell
  unfold shrink
  split
  · exact entered_again herased rfl rfl proper.power proper.aligned (Nat.le_trans htotal hroom)
  · have hmultiple := cellLength_mod total
    have hstart : block.base % 16 = 0 := proper.span.start
    -- The end of the cell is split off and given back, and the rest is entered again.
    have hmiddle : (block.base + cellLength total) % 16 = 0 := by omega
    have hsplit := herased.split hmiddle (Nat.le_add_right _ _) (Nat.add_le_add_left hroom _)
    exact entered_again hsplit.swap.give rfl rfl proper.power proper.aligned htotal

theorem entered_stretch (hroom : ¬cellLength total ≤ length)
    (hstretch : s.stretch? block ⟨block.total, block.align, length⟩ total (cellLength total) =
      some s') :
    s.Entered (some block.base) total block.align block.base s' := by
  have proper := h.arranged.cell hcell
  have htotal := le_cellLength total
  have hmultiple := cellLength_mod total
  have hstart : block.base % 16 = 0 := proper.span.start
  have hstop : (block.base + length) % 16 = 0 := proper.span.stop
  simp only [stretch?, Option.bind_eq_bind, Option.bind_eq_some_iff, Option.pure_def,
    Option.some.injEq] at hstretch
  rcases hstretch with ⟨⟨span, free⟩, htake, rfl⟩
  obtain ⟨htakes, hnext⟩ := FreeSpace.takes_takeAt? htake
  have hlength := htakes.length_le
  have htaken := h.take htakes (by omega)
  have hforward : span.Forward := (htaken.arranged.proper List.mem_cons_self).forward
  simp only [Span.Forward, Span.length] at hforward hlength
  -- The cell and the span behind it are joined and entered as one cell.
  have herased : Tidy _ (⟨block.base, block.base + length⟩ :: [span]) := htaken.erase hcell
  have hmeets : Span.Meets ⟨block.base, block.base + length⟩ span := by
    simp only [Span.Meets]
    omega
  have hjoined := herased.join hmeets
  refine entered_again hjoined ?_ ?_ proper.power proper.aligned ?_
  all_goals simp only [Span.join, Span.length]
  all_goals omega

omit h in
theorem entered_vacate (entered : s.Entered none total align base s') :
    s.Entered (some block.base) total align base (s'.vacate block.base length) := by
  rcases entered with ⟨tidy, hfresh, lengthNew, hcells⟩
  have hnone : s.cells[base]? = none := hfresh.resolve_right (by simp)
  have hne : base ≠ block.base := by
    intro heq
    subst heq
    cases hnone.symm.trans hcell
  have hcell' : s'.cells[block.base]? = some ⟨block.total, block.align, length⟩ := by
    rw [hcells, if_neg hne, if_neg (by simp), hcell]
  refine ⟨(tidy.erase hcell').give, .inl hnone, lengthNew, fun address => ?_⟩
  change (s'.cells.erase block.base)[address]? = _
  rw [Record.getElem?_erase, hcells]
  simp only [Option.some.injEq, reduceCtorEq, if_false]
  by_cases hnew : base = address
  · rw [if_pos hnew, if_pos hnew, if_neg (fun heq => hne (hnew.trans heq.symm))]
  · rw [if_neg hnew, if_neg hnew]

/-- A block that is resized keeps its base and the memory as it is, or is moved with its
bytes; or the state is the one from before the request. -/
theorem move_all (m : Memory) (total : Nat) :
    (s.move m block ⟨block.total, block.align, length⟩ total).All fun outcome =>
      match outcome.base with
      | none => outcome.state = s ∧ outcome.memory = m
      | some base => s.Resettled m block total outcome base := by
  have proper := h.arranged.cell hcell
  refine Dialogue.All.map ((acquire_all h proper.power false).mono fun outcome houtcome => ?_)
  rcases outcome with ⟨base, state, memory⟩
  cases base with
  | none => exact ⟨rfl, rfl⟩
  | some base =>
    rcases houtcome with ⟨entered, rfl⟩
    exact ⟨entered_vacate hcell entered, .inr ⟨entered.fresh.resolve_right (by simp), rfl⟩⟩

end resize

theorem resize_spec (h : s.Tidy []) (hlive : Allocator.Live s block) (m : Memory) (total : Nat) :
    ∃ dialogue, resize block total s m = .ok dialogue ∧ dialogue.All fun outcome =>
        match outcome.base with
        | none => outcome.state = s ∧ outcome.memory = m
        | some base => s.Resettled m block total outcome base := by
  obtain ⟨length, hcell⟩ := live_iff.mp hlive
  have hmove := move_all h hcell m total
  rw [resize, cellOf_eq_ok hcell, ok_bind]
  dsimp only
  split
  · exact ⟨_, rfl, rfl, rfl⟩
  · split
    · exact ⟨_, rfl, hmove⟩
    · split
      · rename_i hroom
        exact ⟨_, rfl, entered_shrink h hcell hroom, .inl ⟨rfl, rfl⟩⟩
      · rename_i hroom
        split
        · rename_i stretched hstretch
          exact ⟨_, rfl, entered_stretch h hcell hroom hstretch, .inl ⟨rfl, rfl⟩⟩
        · exact ⟨_, rfl, hmove⟩

/-- A tidy state is sound, whatever the provider has granted and whatever memory holds. -/
def Sound (ρ : Type) (s : TopSpace) (_ : ρ) (_ : Memory) : Prop := s.Tidy []

theorem acquired (h : s.Tidy []) {cleared : Bool} {outcome : Outcome TopSpace}
    (houtcome : match outcome.base with
      | none => outcome.state = s ∧ outcome.memory = m
      | some base => s.Entered none total align base outcome.state ∧
        outcome.memory = if cleared then m.fill base total 0 else m) :
    Acquired cleared total align s m outcome ∧ outcome.state.Tidy [] := by
  rcases outcome with ⟨base, state, memory⟩
  cases base with
  | none =>
    rcases houtcome with ⟨rfl, rfl⟩
    exact ⟨⟨.refl .., by simp⟩, h⟩
  | some base =>
    rcases houtcome with ⟨entered, rfl⟩
    refine ⟨⟨exchange_entered (by simp) entered ?_, ?_⟩, entered.tidy⟩
    · intro other _ _ hapart address hhas
      have houtside := hapart.symm.not_has hhas
      split
      · exact (Memory.byte_fill ..).trans (if_neg houtside)
      · rfl
    · intro hcleared _ hgiven i hi
      cases hgiven
      simp only [hcleared, if_true]
      exact (Memory.byte_fill ..).trans (if_pos ⟨by omega, by omega⟩)

theorem resized (h : s.Tidy []) (hlive : Allocator.Live s block) {outcome : Outcome TopSpace}
    (houtcome : match outcome.base with
      | none => outcome.state = s ∧ outcome.memory = m
      | some base => s.Resettled m block total outcome base) :
    Resized block total s m outcome ∧ outcome.state.Tidy [] := by
  rcases outcome with ⟨base, state, memory⟩
  cases base with
  | none =>
    rcases houtcome with ⟨rfl, rfl⟩
    exact ⟨⟨.refl .., by simp⟩, h⟩
  | some base =>
    rcases houtcome with ⟨entered, hmemory⟩
    have hold : ∀ other ∈ some block, Allocator.Live s other := by
      intro _ hgiven
      cases hgiven
      exact hlive
    refine ⟨⟨exchange_entered hold entered ?_, ?_⟩, entered.tidy⟩
    · intro other _ _ hapart address hhas
      have houtside := hapart.symm.not_has hhas
      rcases hmemory with ⟨-, rfl⟩ | ⟨-, rfl⟩
      · rfl
      · refine (Memory.byte_copy ..).trans (if_neg fun hinside => houtside ?_)
        simp only [Block.Has]
        omega
    · intro _ hgiven i hi
      cases hgiven
      rcases hmemory with ⟨rfl, rfl⟩ | ⟨-, rfl⟩
      · rfl
      · refine (Memory.byte_copy ..).trans ?_
        rw [if_pos ⟨by omega, by omega⟩, Nat.add_sub_cancel_left]

variable {ρ : Type} [Provider ρ]

/-- The top-space allocator keeps the contract over every provider. -/
theorem meets_contract : Contract (Sound ρ) where
  empty block hlive := by
    obtain ⟨length, hcell⟩ := live_iff.mp hlive
    cases hcell
  acquire := by
    intro s provider m cleared total align h _ hpower
    exact ⟨(acquire_asks cleared).mono fun _ => And.right,
      fun hrun => acquired h ((acquire_all h hpower cleared).run hrun)⟩
  resize := by
    intro s provider m block total h hlive _
    obtain ⟨dialogue, hdialogue, hall⟩ := resize_spec h hlive m total
    exact ⟨dialogue, hdialogue, (resize_asks hdialogue).mono fun _ => And.right,
      fun hrun => resized h hlive (hall.run hrun)⟩
  release := by
    intro s provider m block h hlive
    obtain ⟨s', hrelease, tidy, hex⟩ := release_spec h hlive m
    exact ⟨s', m, hrelease, hex, tidy⟩
  frame h _ := h

theorem firm : Firm (Sound ρ) where
  acquire := by
    intro s provider m cleared total align level reply h hpower hrun hnone
    have houtcome := (acquire_all h hpower cleared).run hrun
    rwa [hnone] at houtcome
  resize := by
    intro s provider m block total dialogue level reply h hlive hdialogue hrun hnone
    obtain ⟨same, hsame, hall⟩ := resize_spec h hlive m total
    obtain rfl : dialogue = same := Except.ok.inj (hdialogue.symm.trans hsame)
    have houtcome := hall.run hrun
    rwa [hnone] at houtcome

end RegionHeap.Sized.TopSpace
