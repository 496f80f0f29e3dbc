import Mathlib.Data.List.Perm.Subperm
import RegionHeap.Proofs.Record
import RegionHeap.Sized.TopSpace

/-!
# Arrangements of spans and cells

Below a limit lie spans and cells, and no address is in two of them. Whatever
the top-space allocator does is a sequence of few changes of such an
arrangement: a span is split in two, spans that meet are joined, a span becomes
a cell, a cell becomes a span, and the span at the limit grows together with
it. Which list the free space keeps a span in plays no part in this, so the
spans are one list, up to its order.
-/
namespace RegionHeap.Sized

namespace Span

variable {a b c span : Span} {limit : Nat}

/-- No address is in both spans. -/
def Apart (a b : Span) : Prop := ∀ address, a.Has address → ¬b.Has address

theorem Apart.symm (h : a.Apart b) : b.Apart a := fun address hb ha => h address ha hb

/-- The span lies between multiples of sixteen and ends no later than the limit. -/
structure Proper (span : Span) (limit : Nat) : Prop where
  start : span.start % 16 = 0
  stop : span.stop % 16 = 0
  forward : span.Forward
  below : span.stop ≤ limit

theorem Proper.mono {limit' : Nat} (h : span.Proper limit) (hle : limit ≤ limit') :
    span.Proper limit' :=
  { h with below := Nat.le_trans h.below hle }

theorem Proper.join (ha : a.Proper limit) (hb : b.Proper limit) : (a.join b).Proper limit := by
  rcases ha with ⟨hstartA, hstopA, hforwardA, hbelowA⟩
  rcases hb with ⟨hstartB, hstopB, -, hbelowB⟩
  refine ⟨?_, ?_, forward_join hforwardA, ?_⟩
  all_goals simp only [Span.join]; omega

theorem Apart.le_or_le (h : a.Apart b) (ha : a.start < a.stop) (hb : b.start < b.stop) :
    a.stop ≤ b.start ∨ b.stop ≤ a.start := by
  have hlater := h (max a.start b.start)
  simp only [Has] at hlater
  omega

theorem Apart.join (hmeets : a.Meets b) (ha : a.Apart c) (hb : b.Apart c) : (a.join b).Apart c := by
  intro address hhas
  rcases (has_join hmeets).mp hhas with hhas | hhas
  · exact ha address hhas
  · exact hb address hhas

end Span

/-- The addresses of a cell. -/
def Cell.span (cell : Cell) (base : Nat) : Span := ⟨base, base + cell.length⟩

structure Cell.Proper (cell : Cell) (base limit : Nat) : Prop where
  span : (cell.span base).Proper limit
  power : Word.isPowerOfTwo cell.align
  aligned : base % cell.align = 0
  room : cell.total + 8 ≤ cell.length

/-- Spans and cells below a limit, of which no two have an address in common. -/
structure Arranged (spans : List Span) (cells : Std.TreeMap Nat Cell) (limit : Nat) : Prop where
  proper : ∀ {span}, span ∈ spans → span.Proper limit
  disjoint : spans.Pairwise Span.Apart
  cell : ∀ {base : Nat} {cell : Cell}, cells[base]? = some cell → cell.Proper base limit
  beside : ∀ {base : Nat} {cell : Cell}, cells[base]? = some cell → ∀ {span}, span ∈ spans →
    (cell.span base).Apart span
  apart : ∀ {a b : Nat} {cellA cellB : Cell}, cells[a]? = some cellA → cells[b]? = some cellB →
    a ≠ b → (cellA.span a).Apart (cellB.span b)

namespace Arranged

variable {spans spans' : List Span} {cells cells' : Std.TreeMap Nat Cell} {limit limit' base : Nat}
  {span lower upper a b : Span} {cell : Cell}

/-- Only what belongs to an arrangement matters, not its order, and spans may be given up. -/
theorem of_subperm (h : Arranged spans cells limit) (hsub : spans'.Subperm spans) :
    Arranged spans' cells limit where
  proper hmem := h.proper (hsub.subset hmem)
  disjoint := by
    rcases hsub with ⟨same, hperm, hsublist⟩
    exact (h.disjoint.sublist hsublist).perm hperm Span.Apart.symm
  cell := h.cell
  beside hbase _ hmem := h.beside hbase (hsub.subset hmem)
  apart := h.apart

theorem perm (h : Arranged spans cells limit) (hperm : spans.Perm spans') :
    Arranged spans' cells limit :=
  h.of_subperm hperm.symm.subperm

/-- A span may be split at a multiple of sixteen inside it. -/
theorem split (h : Arranged (span :: spans) cells limit) {middle : Nat}
    (hmultiple : middle % 16 = 0) (hstart : span.start ≤ middle) (hstop : middle ≤ span.stop) :
    Arranged (⟨span.start, middle⟩ :: ⟨middle, span.stop⟩ :: spans) cells limit := by
  have proper := h.proper List.mem_cons_self
  obtain ⟨hspan, hrest⟩ := List.pairwise_cons.mp h.disjoint
  have hlower : ∀ {address}, Span.Has ⟨span.start, middle⟩ address → span.Has address := by
    simp only [Span.Has]
    omega
  have hupper : ∀ {address}, Span.Has ⟨middle, span.stop⟩ address → span.Has address := by
    simp only [Span.Has]
    omega
  constructor
  case proper =>
    simp only [List.mem_cons]
    intro other hcase
    rcases hcase with rfl | rfl | hmem
    · exact ⟨proper.start, hmultiple, hstart, Nat.le_trans hstop proper.below⟩
    · exact ⟨hmultiple, proper.stop, hstop, proper.below⟩
    · exact h.proper (List.mem_cons_of_mem _ hmem)
  case disjoint =>
    refine List.pairwise_cons.mpr ⟨?_, List.pairwise_cons.mpr ⟨?_, hrest⟩⟩
    · simp only [List.mem_cons]
      intro other hcase address hhas
      rcases hcase with rfl | hmem
      · simp only [Span.Has] at *
        omega
      · exact hspan other hmem address (hlower hhas)
    · exact fun other hmem address hhas => hspan other hmem address (hupper hhas)
  case cell => exact h.cell
  case beside =>
    simp only [List.mem_cons]
    intro base cell hbase other hcase address hhas hother
    rcases hcase with rfl | rfl | hmem
    · exact h.beside hbase List.mem_cons_self address hhas (hlower hother)
    · exact h.beside hbase List.mem_cons_self address hhas (hupper hother)
    · exact h.beside hbase (List.mem_cons_of_mem _ hmem) address hhas hother
  case apart => exact h.apart

theorem join (h : Arranged (a :: b :: spans) cells limit) (hmeets : a.Meets b) :
    Arranged (a.join b :: spans) cells limit := by
  obtain ⟨ha, hrest⟩ := List.pairwise_cons.mp h.disjoint
  obtain ⟨hb, hrest⟩ := List.pairwise_cons.mp hrest
  have hmemB : b ∈ a :: b :: spans := List.mem_cons_of_mem _ List.mem_cons_self
  constructor
  case proper =>
    simp only [List.mem_cons]
    intro other hcase
    rcases hcase with rfl | hmem
    · exact (h.proper List.mem_cons_self).join (h.proper hmemB)
    · exact h.proper (List.mem_cons_of_mem _ (List.mem_cons_of_mem _ hmem))
  case disjoint =>
    refine List.pairwise_cons.mpr ⟨fun other hmem => ?_, hrest⟩
    exact (ha other (List.mem_cons_of_mem _ hmem)).join hmeets (hb other hmem)
  case cell => exact h.cell
  case beside =>
    simp only [List.mem_cons]
    intro base cell hbase other hcase
    rcases hcase with rfl | hmem
    · exact ((h.beside hbase List.mem_cons_self).symm.join hmeets (h.beside hbase hmemB).symm).symm
    · exact h.beside hbase (List.mem_cons_of_mem _ (List.mem_cons_of_mem _ hmem))
  case apart => exact h.apart

theorem foldl_join {meeting : List Span} (h : Arranged (span :: (meeting ++ spans)) cells limit)
    (hmeets : ∀ other ∈ meeting, span.Meets other) :
    Arranged (meeting.foldl Span.join span :: spans) cells limit := by
  induction meeting generalizing span with
  | nil => exact h
  | cons first rest ih =>
    have hfirst := hmeets first List.mem_cons_self
    exact ih (h.join hfirst) fun other hmem =>
      Span.meets_join (hmeets other (List.mem_cons_of_mem _ hmem))

theorem occupy (h : Arranged (span :: spans) cells limit) (proper : cell.Proper base limit)
    (hspan : cell.span base = span) (hcells : ∀ other : Nat,
      cells'[other]? = if base = other then some cell else cells[other]?) :
    Arranged spans cells' limit := by
  obtain ⟨hnew, hrest⟩ := List.pairwise_cons.mp h.disjoint
  subst hspan
  constructor
  case proper => exact fun hmem => h.proper (List.mem_cons_of_mem _ hmem)
  case disjoint => exact hrest
  case cell =>
    intro other cell' hother
    rw [hcells] at hother
    split at hother
    · rename_i heq
      obtain rfl := Option.some.inj hother
      exact heq ▸ proper
    · exact h.cell hother
  case beside =>
    intro other cell' hother span hmem
    rw [hcells] at hother
    split at hother
    · rename_i heq
      obtain rfl := Option.some.inj hother
      exact heq ▸ hnew span hmem
    · exact h.beside hother (List.mem_cons_of_mem _ hmem)
  case apart =>
    intro a b cellA cellB ha hb hne
    rw [hcells] at ha hb
    split at ha
    · rename_i heq
      obtain rfl := Option.some.inj ha
      rw [if_neg (heq ▸ hne)] at hb
      exact heq ▸ (h.beside hb List.mem_cons_self).symm
    · split at hb
      · rename_i heq
        obtain rfl := Option.some.inj hb
        exact heq ▸ h.beside ha List.mem_cons_self
      · exact h.apart ha hb hne

theorem vacate (h : Arranged spans cells limit) (hbase : cells[base]? = some cell) :
    Arranged (cell.span base :: spans) (cells.erase base) limit := by
  have proper := h.cell hbase
  constructor
  case proper =>
    simp only [List.mem_cons]
    intro other hcase
    rcases hcase with rfl | hmem
    · exact proper.span
    · exact h.proper hmem
  case disjoint => exact List.pairwise_cons.mpr ⟨fun other hmem => h.beside hbase hmem, h.disjoint⟩
  case cell =>
    intro other cell' hother
    rw [Record.getElem?_erase] at hother
    split at hother
    · cases hother
    · exact h.cell hother
  case beside =>
    intro other cell' hother span hmem
    rw [Record.getElem?_erase] at hother
    split at hother
    · cases hother
    · rename_i hne
      rcases List.mem_cons.mp hmem with rfl | hmem
      · exact h.apart hother hbase (Ne.symm hne)
      · exact h.beside hother hmem
  case apart =>
    intro a b cellA cellB ha hb hne
    rw [Record.getElem?_erase] at ha hb
    split at ha
    · cases ha
    · split at hb
      · cases hb
      · exact h.apart ha hb hne

theorem mono (h : Arranged spans cells limit) (hle : limit ≤ limit') :
    Arranged spans cells limit' where
  proper hmem := (h.proper hmem).mono hle
  disjoint := h.disjoint
  cell hbase := { h.cell hbase with span := (h.cell hbase).span.mono hle }
  beside := h.beside
  apart := h.apart

/-- A span above the limit joins the arrangement, and the limit moves to its end. -/
theorem above (h : Arranged spans cells limit) (hstart : limit ≤ span.start)
    (proper : span.Proper limit') : Arranged (span :: spans) cells limit' := by
  have hle : limit ≤ limit' := Nat.le_trans hstart (Nat.le_trans proper.forward proper.below)
  have hraised := h.mono hle
  constructor
  case proper =>
    simp only [List.mem_cons]
    intro other hcase
    rcases hcase with rfl | hmem
    · exact proper
    · exact hraised.proper hmem
  case disjoint =>
    refine List.pairwise_cons.mpr ⟨fun other hmem address hhas hother => ?_, h.disjoint⟩
    have hbelow := (h.proper hmem).below
    simp only [Span.Has] at *
    omega
  case cell => exact hraised.cell
  case beside =>
    intro base cell hbase other hmem
    rcases List.mem_cons.mp hmem with rfl | hmem
    · intro address hhas hother
      have hbelow := (h.cell hbase).span.below
      simp only [Cell.span, Span.Has] at *
      omega
    · exact h.beside hbase hmem
  case apart => exact h.apart

end Arranged

end RegionHeap.Sized
