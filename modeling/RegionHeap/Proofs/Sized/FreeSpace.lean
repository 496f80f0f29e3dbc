import RegionHeap.Proofs.Sized.Arrangement

/-!
# Free space as one list of spans

Taken together, the holes, the spare and the top are a list of spans. To take
is to part one span of it, wherever it is kept, and to give back is to join
what meets. Both keep an arrangement, and neither moves the end of the top.
-/
namespace RegionHeap.Sized

namespace Span

/-- A span is parted into its lower addresses and the others, or kept whole. -/
inductive Parts (length : Nat) (span : Span) : Span → Option Span → Prop
  | whole : length ≤ span.length → Parts length span span none
  | lower : length ≤ span.length → Parts length span ⟨span.start, span.start + length⟩
      (some ⟨span.start + length, span.stop⟩)

theorem parts_cut {span : Span} {length : Nat} (h : length ≤ span.length) :
    Parts length span (span.cut length).1 (span.cut length).2 := by
  unfold cut
  split
  · exact .whole h
  · exact .lower h

theorem Parts.start_eq {span taken : Span} {length : Nat} {rest : Option Span}
    (h : Parts length span taken rest) : taken.start = span.start := by
  cases h <;> rfl

theorem Parts.length_le {span taken : Span} {length : Nat} {rest : Option Span}
    (h : Parts length span taken rest) : length ≤ taken.length := by
  cases h with
  | whole h => exact h
  | lower h =>
    simp only [Span.length]
    omega

end Span

theorem Arranged.parts {spans : List Span} {cells : Std.TreeMap Nat Cell} {limit length : Nat}
    {span taken : Span} {rest : Option Span} (h : Arranged (span :: spans) cells limit)
    (hparts : span.Parts length taken rest) (hmultiple : length % 16 = 0) :
    Arranged (taken :: (rest.toList ++ spans)) cells limit := by
  cases hparts with
  | whole => exact h
  | lower hlength =>
    have proper := h.proper List.mem_cons_self
    have hstart := proper.start
    have hforward := proper.forward
    simp only [Span.length, Span.Forward] at *
    exact h.split (by omega) (by omega) (by omega)

namespace FreeSpace

variable {free rest : FreeSpace} {span taken : Span} {length start limit : Nat}

/-- All spans of the free space. -/
def spans (free : FreeSpace) : List Span := free.holes ++ (free.spare.toList ++ [free.top])

/-- One span is parted, the lower part is taken, and the end of the top stays where it is. -/
def Takes (free : FreeSpace) (length : Nat) (taken : Span) (rest : FreeSpace) : Prop :=
  ∃ span others remainder, free.spans.Perm (span :: others) ∧
    rest.spans.Perm (remainder.toList ++ others) ∧ span.Parts length taken remainder ∧
    rest.top.stop = free.top.stop

theorem takes_takeTop? (h : free.takeTop? length = some (taken, rest)) :
    free.Takes length taken rest := by
  unfold takeTop? at h
  split at h
  · rename_i hroom
    simp only [Option.some.injEq, Prod.mk.injEq] at h
    rcases h with ⟨rfl, rfl⟩
    refine ⟨free.top, free.holes ++ free.spare.toList, _, ?_, ?_, .lower (Nat.le_of_lt hroom), rfl⟩
    · rw [spans, ← List.append_assoc]
      exact List.perm_append_singleton _ _
    · rw [spans, ← List.append_assoc]
      exact List.perm_append_singleton _ _
  · cases h

theorem takes_takeSpare? (h : free.takeSpare? length = some (taken, rest)) :
    free.Takes length taken rest := by
  unfold takeSpare? at h
  simp only [Option.bind_eq_bind, Option.bind_eq_some_iff, Option.filter_eq_some_iff,
    decide_eq_true_eq, Option.pure_def, Option.some.injEq, Prod.mk.injEq] at h
  rcases h with ⟨spare, ⟨hspare, hlength⟩, rfl, rfl⟩
  refine ⟨spare, free.holes ++ [free.top], _, ?_, ?_, Span.parts_cut hlength, rfl⟩
  · rw [spans, hspare]
    exact List.perm_middle
  · simp only [spans, ← List.append_assoc]
    exact List.perm_append_comm.append_right _

theorem takes_takeHole (h : span ∈ free.holes) (hlength : length ≤ span.length) :
    free.Takes length (free.takeHole length span).1 (free.takeHole length span).2 := by
  refine ⟨span, free.holes.erase span ++ (free.spare.toList ++ [free.top]), _, ?_, ?_,
    Span.parts_cut hlength, rfl⟩
  · exact (List.perm_cons_erase h).append_right _
  · rw [takeHole, spans, List.append_assoc]

theorem takes_takeHoleToSpare (h : span ∈ free.holes) (hlength : length ≤ span.length) :
    free.Takes length (free.takeHoleToSpare length span).1
      (free.takeHoleToSpare length span).2 := by
  have hparts := Span.parts_cut hlength
  have hspans : free.spans.Perm
      (span :: (free.holes.erase span ++ (free.spare.toList ++ [free.top]))) :=
    (List.perm_cons_erase h).append_right _
  unfold takeHoleToSpare
  split
  · rename_i heq
    rw [heq] at hparts
    exact ⟨span, _, none, hspans, .rfl, hparts, rfl⟩
  · rename_i remainder heq
    rw [heq] at hparts
    refine ⟨span, _, some remainder, hspans, ?_, hparts, rfl⟩
    apply List.perm_iff_count.mpr
    intro other
    simp only [spans, Option.toList_some, List.count_append]
    omega

theorem takes_takeFromHoles? (h : free.takeFromHoles? length = some (taken, rest)) :
    free.Takes length taken rest := by
  unfold takeFromHoles? at h
  simp only [Option.bind_eq_bind, Option.bind_eq_some_iff, Option.filter_eq_some_iff] at h
  rcases h with ⟨hole, ⟨hhole, -⟩, h⟩
  obtain ⟨hmem, hlength, -⟩ := Holes.tightest?_eq_some hhole
  split at h
  · have htakes := takes_takeHoleToSpare hmem hlength
    rwa [Option.some.inj h] at htakes
  · have htakes := takes_takeHole hmem hlength
    rwa [Option.some.inj h] at htakes

theorem takes_take? (h : free.take? length = some (taken, rest)) :
    free.Takes length taken rest := by
  simp only [take?, Option.orElse_eq_orElse, Option.orElse_eq_or, Option.or_eq_some_iff] at h
  rcases h with h | ⟨-, h | ⟨-, h⟩⟩
  · exact takes_takeFromHoles? h
  · exact takes_takeSpare? h
  · exact takes_takeTop? h

theorem takes_takeAt? (h : free.takeAt? start length = some (taken, rest)) :
    free.Takes length taken rest ∧ taken.start = start := by
  unfold takeAt? at h
  split at h
  · rename_i hstart
    refine ⟨takes_takeTop? h, ?_⟩
    unfold takeTop? at h
    split at h
    · simp only [Option.some.injEq, Prod.mk.injEq] at h
      rw [← h.1, ← hstart]
    · cases h
  · split at h
    · rename_i hany
      refine ⟨takes_takeSpare? h, ?_⟩
      simp only [takeSpare?, Option.bind_eq_bind, Option.bind_eq_some_iff,
        Option.filter_eq_some_iff, decide_eq_true_eq, Option.pure_def, Option.some.injEq,
        Prod.mk.injEq] at h
      rcases h with ⟨spare, ⟨hspare, hlength⟩, rfl, -⟩
      rw [hspare, Option.any_some, decide_eq_true_eq] at hany
      rw [(Span.parts_cut hlength).start_eq, hany]
    · obtain ⟨hole, hhole, heq⟩ := Option.map_eq_some_iff.mp h
      obtain ⟨hfind, hlength⟩ := Option.filter_eq_some_iff.mp hhole
      have hstart := List.find?_some hfind
      rw [decide_eq_true_eq] at hstart
      have htakes := takes_takeHole (List.mem_of_find?_eq_some hfind)
        (of_decide_eq_true hlength)
      rw [heq] at htakes
      refine ⟨htakes, ?_⟩
      have htaken : (hole.cut length).1 = taken := congrArg Prod.fst heq
      rw [← htaken, (Span.parts_cut (of_decide_eq_true hlength)).start_eq, hstart]

theorem Takes.length_le (h : free.Takes length taken rest) : length ≤ taken.length := by
  rcases h with ⟨_, _, _, -, -, hparts, -⟩
  exact hparts.length_le

theorem Takes.arranged {cells : Std.TreeMap Nat Cell} (htakes : free.Takes length taken rest)
    (h : Arranged free.spans cells limit) (hmultiple : length % 16 = 0) :
    Arranged (taken :: rest.spans) cells limit := by
  rcases htakes with ⟨span, others, remainder, hspans, hrest, hparts, -⟩
  exact ((h.perm hspans).parts hparts hmultiple).perm (hrest.symm.cons taken)

/-- What is given back is joined with all spans that it touches. -/
theorem spans_give (span : Span) (free : FreeSpace) :
    (give span free).spans.Perm
      ((free.spans.filter span.touches).foldl Span.join span ::
        free.spans.filter fun other => !span.touches other) := by
  rcases free with ⟨holes, spare, top⟩
  simp only [spans, List.filter_append, List.foldl_append]
  unfold give
  cases spare with
  | none => cases htop : span.touches top <;> simp [Option.filter_none, htop]
  | some spare =>
    cases hspare : span.touches spare with
    | true => cases htop : span.touches top <;> simp [Option.filter_some, hspare, htop]
    | false =>
      cases htop : span.touches top with
      | false => simp [Option.filter_some, hspare, htop]
      | true =>
        simp only [Option.filter_some, hspare, htop, Option.toList_some, List.filter_cons,
          List.filter_nil, Bool.not_true, Bool.not_false, Bool.false_eq_true, if_true, if_false,
          List.foldl_cons, List.foldl_nil, List.append_nil]
        rw [← List.append_assoc]
        exact List.perm_append_singleton _ _

/-- Giving back a loose span leaves nothing loose but what was loose before. -/
theorem arranged_give {loose : List Span} {cells : Std.TreeMap Nat Cell}
    (h : Arranged (span :: (loose ++ free.spans)) cells limit) :
    Arranged (loose ++ (give span free).spans) cells limit := by
  have hmem : ∀ other ∈ free.spans, other ∈ span :: (loose ++ free.spans) := fun other hother =>
    List.mem_cons_of_mem _ (List.mem_append_right _ hother)
  have hmeets : ∀ other ∈ free.spans.filter span.touches, span.Meets other := by
    intro other hother
    obtain ⟨hother, htouches⟩ := List.mem_filter.mp hother
    exact Span.meets_of_touches htouches (h.proper List.mem_cons_self).forward
      (h.proper (hmem other hother)).forward
  have hparted : (span :: (loose ++ free.spans)).Perm
      (span :: (free.spans.filter span.touches ++
        (loose ++ free.spans.filter fun other => !span.touches other))) := by
    refine List.Perm.cons span (List.perm_iff_count.mpr fun other => ?_)
    have hcount := (List.filter_append_perm span.touches free.spans).count_eq other
    simp only [List.count_append] at *
    omega
  have hjoined := (h.perm hparted).foldl_join hmeets
  refine hjoined.perm (List.perm_iff_count.mpr fun other => ?_)
  have hcount := (spans_give span free).count_eq other
  simp only [List.count_cons, List.count_append] at *
  omega

theorem stop_foldl_join_le {meeting : List Span} (hspan : span.stop ≤ limit)
    (hmeeting : ∀ other ∈ meeting, other.stop ≤ limit) :
    (meeting.foldl Span.join span).stop ≤ limit := by
  induction meeting generalizing span with
  | nil => exact hspan
  | cons first rest ih =>
    exact ih (Nat.max_le.mpr ⟨hspan, hmeeting first List.mem_cons_self⟩)
      fun other hmem => hmeeting other (List.mem_cons_of_mem _ hmem)

theorem top_stop_give (hspan : span.stop ≤ free.top.stop)
    (hspans : ∀ other ∈ free.spans, other.stop ≤ free.top.stop) :
    (give span free).top.stop = free.top.stop := by
  have hjoined : ((free.holes.filter span.touches).foldl Span.join span).stop ≤ free.top.stop :=
    stop_foldl_join_le hspan fun other hmem =>
      hspans other (List.mem_append_left _ (List.mem_filter.mp hmem).1)
  unfold give
  split
  · rfl
  · rfl
  · exact Nat.max_eq_right hjoined
  · rename_i spare hsome _
    have hspare : spare.stop ≤ free.top.stop := by
      refine hspans spare (List.mem_append_right _ (List.mem_append_left _ ?_))
      exact Option.mem_toList.mpr (Option.filter_eq_some_iff.mp hsome).1
    exact Nat.max_eq_right (Nat.max_le.mpr ⟨hjoined, hspare⟩)

end FreeSpace

end RegionHeap.Sized
