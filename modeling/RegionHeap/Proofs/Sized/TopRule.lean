import RegionHeap.Proofs.Sized.TopSpace

/-!
# The rule of the top

An allocator may keep its free memory in one piece, the top, for as long as blocks are given
back in the opposite order in which they were handed out. A block is then cut from the lower
end of the top if that leaves something of it. Otherwise the source is asked, once, and a
grant that continues the region makes the top longer; the first one has eighty bytes less than
it is long. The newest block is given back to the top. The top-space allocator follows this
rule if its grants are multiples of sixteen bytes at multiples of sixteen.
-/
namespace RegionHeap.Sized

open Growth (Grant)
open TopSpace (cellLength growthFor)

/-- The rule by which blocks of the smallest alignment are cut from a top and given back. `room`
is the length of the top, requests from `limit` on are refused at once, and the rule is about
grants that are `Given`. `Stack` says which blocks are live, the newest first, and where the
newest grant ends, if there was one. -/
structure TopRule {α : Type} [Allocator α] (room : α → Nat) (limit : Nat) (Given : Grant → Prop)
    (Stack : α → Option Nat → List Block → Prop) : Prop where
  room_empty : room Allocator.empty = 0
  empty : Stack Allocator.empty none []
  refuses : ∀ {total} (cleared : Bool) (s : α) (m : Memory), limit ≤ total →
    Allocator.acquire cleared total Word.minAlign s m = .done ⟨none, s, m⟩
  takes : ∀ {s stop blocks total} (cleared : Bool) (m : Memory), Stack s stop blocks →
    total < limit → cellLength total < room s →
    ∃ base s' m', Allocator.acquire cleared total Word.minAlign s m = .done ⟨some base, s', m'⟩ ∧
      room s' + cellLength total = room s ∧ Stack s' stop (⟨base, total, Word.minAlign⟩ :: blocks)
  asks : ∀ {s stop blocks total} (cleared : Bool) (m : Memory), Stack s stop blocks →
    total < limit → room s ≤ cellLength total →
    ∃ next, Allocator.acquire cleared total Word.minAlign s m =
        .ask (growthFor (cellLength total)) next ∧
      next none = .done ⟨none, s, m⟩ ∧
      ∀ grant, Given grant → (∀ address ∈ stop, grant.base = address) →
        growthFor (cellLength total) ≤ grant.size →
        ∃ base s' m', next (some grant) = .done ⟨some base, s', m'⟩ ∧
          room s' + cellLength total + (if stop = none then 80 else 0) = room s + grant.size ∧
          Stack s' (some (grant.base + grant.size)) (⟨base, total, Word.minAlign⟩ :: blocks)
  releases : ∀ {s stop block blocks} (m : Memory), Stack s stop (block :: blocks) →
    ∃ s' m', Allocator.release block s m = .ok (s', m') ∧
      room s' = room s + cellLength block.total ∧ Stack s' stop blocks

namespace FreeSpace

variable {free : FreeSpace} {span : Span} {length : Nat}

theorem take?_eq_takeTop? (hholes : free.holes = []) (hspare : free.spare = none) :
    free.take? length = free.takeTop? length := by
  have hfrom : free.takeFromHoles? length = none := by
    rw [takeFromHoles?, hholes]
    rfl
  have hspent : free.takeSpare? length = none := by
    rw [takeSpare?, hspare]
    rfl
  rw [take?, hfrom, hspent]
  rfl

theorem takeTop?_of_lt (h : length < free.top.length) :
    free.takeTop? length = some (⟨free.top.start, free.top.start + length⟩,
      { free with top := ⟨free.top.start + length, free.top.stop⟩ }) := if_pos h

theorem give_below_top (hholes : free.holes = []) (hspare : free.spare = none)
    (hspan : span.Forward) (htop : free.top.Forward) (hstop : span.stop = free.top.start) :
    free.give span = { free with top := ⟨span.start, free.top.stop⟩ } := by
  have htouches : span.touches free.top = true := by simp [Span.touches, hstop]
  have hjoin : span.join free.top = ⟨span.start, free.top.stop⟩ := by
    simp only [Span.Forward] at hspan htop
    rw [Span.join, Nat.min_eq_left (by omega), Nat.max_eq_right (by omega)]
  simp only [give, hholes, hspare, htouches, Option.filter_none, List.filter_nil, List.foldl_nil,
    hjoin]

end FreeSpace

namespace TopSpace

variable {s : TopSpace} {stop : Option Nat} {block : Block} {blocks : List Block} {total : Nat}

/-- The blocks lie on each other, the newest first and below `stop`, each in a cell of the
length that it needs. -/
def Piled : Nat → List Block → Prop
  | _, [] => True
  | stop, block :: older => block.base + cellLength block.total = stop ∧ Piled block.base older

/-- Nothing is free but the top, and below it lie the blocks. -/
structure Stack (s : TopSpace) (stop : Option Nat) (blocks : List Block) : Prop where
  holes : s.free.holes = []
  spare : s.free.spare = none
  top : s.free.top.Forward
  ended : s.stop = stop.getD 0
  /-- Before the first grant there is nothing at all. -/
  first : stop = none → s.free.top = ⟨0, 0⟩ ∧ blocks = []
  later : ∀ address ∈ stop, s.free.top.stop + 64 = address ∧ address % 16 = 0
  piled : Piled s.free.top.start blocks
  cells : ∀ block ∈ blocks,
    s.cells[block.base]? = some ⟨block.total, block.align, cellLength block.total⟩

/-- A grant of which every byte but the eighty that are kept back can be used. -/
structure Suits (grant : Grant) : Prop where
  pos : 0 < grant.base
  base : grant.base % 16 = 0
  size : grant.size % 16 = 0
  word : grant.base + grant.size ≤ Word.bound

theorem cellLength_pos (total : Nat) : 0 < cellLength total :=
  Nat.lt_of_lt_of_le (by decide) (Nat.le_max_left Span.least _)

theorem cellLength_mono {total other : Nat} (h : total ≤ other) :
    cellLength total ≤ cellLength other := by
  have hlow := Word.ceiling_lt (total + 8) (show 0 < 16 by decide)
  have hhigh := Word.le_ceiling (other + 8) (show 0 < 16 by decide)
  have hmod := Word.ceiling_mod (total + 8) 16
  have hmodOther := Word.ceiling_mod (other + 8) 16
  simp only [cellLength]
  omega

theorem lt_growthFor (length : Nat) : length + 80 < growthFor length :=
  Nat.lt_of_lt_of_le (by omega) (Word.le_ceiling (length + 96) (by decide))

theorem Piled.base_lt {start : Nat} (h : Piled start blocks) :
    ∀ block ∈ blocks, block.base < start := by
  induction blocks generalizing start with
  | nil => exact nofun
  | cons newest older ih =>
    obtain ⟨hstart, hpiled⟩ := h
    have hpos := cellLength_pos newest.total
    refine List.forall_mem_cons.mpr ⟨by omega, fun block hmem => ?_⟩
    exact Nat.lt_trans (ih hpiled block hmem) (by omega)

/-- The state after the cell of a block was cut from the top. -/
def cutTop (s : TopSpace) (total : Nat) : TopSpace :=
  { s with
    free := { s.free with top := ⟨s.free.top.start + cellLength total, s.free.top.stop⟩ }
    cells := s.cells.insert s.free.top.start ⟨total, Word.minAlign, cellLength total⟩ }

theorem room_cutTop (h : cellLength total < s.room) :
    (s.cutTop total).room + cellLength total = s.room := by
  simp only [room, cutTop, Span.length] at *
  omega

theorem occupy_top (s : TopSpace) (total : Nat) :
    occupy { s with free :=
        { s.free with top := ⟨s.free.top.start + cellLength total, s.free.top.stop⟩ } }
      total Word.minAlign ⟨s.free.top.start, s.free.top.start + cellLength total⟩ =
        (s.free.top.start, s.cutTop total) := by
  rw [occupy, if_pos (Nat.le_refl _)]
  simp only [cutTop, Span.length, Nat.add_sub_cancel_left]

theorem Stack.cutTop (h : s.Stack stop blocks) (hlt : cellLength total < s.room) :
    (s.cutTop total).Stack stop (⟨s.free.top.start, total, Word.minAlign⟩ :: blocks) where
  holes := h.holes
  spare := h.spare
  top := by
    have htop : s.free.top.start + cellLength total ≤ s.free.top.stop := by
      simp only [room, Span.length] at hlt
      omega
    exact htop
  ended := h.ended
  first := by
    intro hnone
    rw [room, (h.first hnone).1] at hlt
    cases hlt
  later := h.later
  piled := ⟨rfl, h.piled⟩
  cells := by
    refine List.forall_mem_cons.mpr ⟨?_, fun block hmem => ?_⟩
    · exact Record.getElem?_insert.trans (if_pos rfl)
    · have hne : s.free.top.start ≠ block.base := Nat.ne_of_gt (h.piled.base_lt block hmem)
      exact (Record.getElem?_insert.trans (if_neg hne)).trans (h.cells block hmem)

section grants

variable {grant : Grant} (suits : Suits grant) (hsize : 80 < grant.size)

include suits hsize

theorem extend?_first (hended : s.stop = 0) :
    s.extend? grant = some { s with
      free := s.free.replaceTop ⟨grant.base + 16, grant.base + grant.size - 64⟩
      stop := grant.base + grant.size } := by
  obtain ⟨hpos, hbase, hmultiple, hword⟩ := suits
  have hguard : grant.base ≠ 0 ∧ s.stop ≤ grant.base ∧ grant.base + grant.size ≤ Word.bound := by
    omega
  have hlimit : (grant.base + grant.size - 64) / 16 * 16 = grant.base + grant.size - 64 := by omega
  have hstart : Word.ceiling (grant.base + 16) 16 = grant.base + 16 := by
    simp only [Word.ceiling]
    omega
  have hfirst : grant.base ≠ s.stop := by omega
  have hroom : grant.base + 16 < grant.base + grant.size - 64 := by omega
  unfold extend?
  simp only [guard, if_pos hguard, hlimit, hstart, if_neg hfirst, if_pos hroom]
  rfl

theorem extend?_next (hended : s.stop = grant.base) (htop : s.free.top.stop + 64 = grant.base) :
    s.extend? grant = some { s with
      free := s.free.stretchTop (grant.base + grant.size - 64)
      stop := grant.base + grant.size } := by
  obtain ⟨hpos, hbase, hmultiple, hword⟩ := suits
  have hguard : grant.base ≠ 0 ∧ s.stop ≤ grant.base ∧ grant.base + grant.size ≤ Word.bound := by
    omega
  have hlimit : (grant.base + grant.size - 64) / 16 * 16 = grant.base + grant.size - 64 := by omega
  have hroom : s.free.top.stop < grant.base + grant.size - 64 := by omega
  unfold extend?
  simp only [guard, if_pos hguard, hlimit, if_pos hended.symm, if_pos hroom]
  rfl

/-- A grant that suits makes the top longer if it continues the region, as it must. -/
theorem Stack.extend (h : s.Stack stop blocks) (hnext : ∀ address ∈ stop, grant.base = address) :
    ∃ extended, s.extend? grant = some extended ∧
      extended.Stack (some (grant.base + grant.size)) blocks ∧
      extended.room + (if stop = none then 80 else 0) = s.room + grant.size := by
  have hended := h.ended
  have hmultiple : (grant.base + grant.size) % 16 = 0 := by
    have hbase := suits.base
    have hlength := suits.size
    omega
  have hgranted : ∀ {p : Prop}, some (grant.base + grant.size) = none → p :=
    fun hnone => absurd hnone (Option.some_ne_none _)
  -- The first grant makes another top, all later ones make the top longer.
  cases stop with
  | none =>
    obtain ⟨htop, rfl⟩ := h.first rfl
    have hholes :
        (s.free.replaceTop ⟨grant.base + 16, grant.base + grant.size - 64⟩).holes = [] := by
      rw [FreeSpace.replaceTop, htop, h.holes]
      rfl
    refine ⟨_, extend?_first suits hsize hended, ⟨hholes, h.spare, ?_, rfl, hgranted, ?_, trivial,
      List.forall_mem_nil _⟩, ?_⟩
    · simp only [Span.Forward, FreeSpace.replaceTop]
      omega
    · intro address haddress
      obtain rfl := Option.some.inj haddress
      refine ⟨?_, hmultiple⟩
      simp only [FreeSpace.replaceTop]
      omega
    · rw [if_pos rfl, room, room, htop]
      simp only [FreeSpace.replaceTop, Span.length]
      omega
  | some address =>
    have hbase := hnext address rfl
    obtain ⟨htop, -⟩ := h.later address rfl
    have hforward : s.free.top.start ≤ s.free.top.stop := h.top
    refine ⟨_, extend?_next suits hsize (hended.trans hbase.symm) (htop.trans hbase.symm),
      ⟨h.holes, h.spare, ?_, rfl, hgranted, ?_, h.piled, h.cells⟩, ?_⟩
    · simp only [Span.Forward, FreeSpace.stretchTop]
      omega
    · intro later hlater
      obtain rfl := Option.some.inj hlater
      refine ⟨?_, hmultiple⟩
      simp only [FreeSpace.stretchTop]
      omega
    · rw [if_neg (Option.some_ne_none address), room, room]
      simp only [FreeSpace.stretchTop, Span.length]
      omega

end grants

theorem Stack.vacate (h : s.Stack stop (block :: blocks)) :
    (s.vacate block.base (cellLength block.total)).Stack stop blocks ∧
      (s.vacate block.base (cellLength block.total)).room = s.room + cellLength block.total := by
  obtain ⟨hstart, hpiled⟩ := h.piled
  have htop : s.free.top.start ≤ s.free.top.stop := h.top
  have hgive : s.free.give ⟨block.base, block.base + cellLength block.total⟩ =
      { s.free with top := ⟨block.base, s.free.top.stop⟩ } :=
    FreeSpace.give_below_top h.holes h.spare (Nat.le_add_right _ _) h.top hstart
  rw [TopSpace.vacate, hgive]
  refine ⟨⟨h.holes, h.spare, ?_, h.ended, ?_, h.later, hpiled, ?_⟩, ?_⟩
  · simp only [Span.Forward]
    omega
  · intro hnone
    cases (h.first hnone).2
  · intro older hmem
    have hne : block.base ≠ older.base := Nat.ne_of_gt (hpiled.base_lt older hmem)
    exact (Record.getElem?_erase.trans (if_neg hne)).trans
      (h.cells older (List.mem_cons_of_mem _ hmem))
  · simp only [room, Span.length]
    omega

theorem stack_empty : Stack {} none [] :=
  ⟨rfl, rfl, Nat.le_refl _, rfl, fun _ => ⟨rfl, rfl⟩, nofun, trivial, nofun⟩

/-- The outcome of a request for the smallest alignment after a span was taken or not. -/
def outcomeOf (cleared : Bool) (total : Nat) (s : TopSpace) (m : Memory) :
    Option (Span × TopSpace) → Outcome TopSpace
  | none => ⟨none, s, m⟩
  | some (span, found) =>
    let (base, occupied) := found.occupy total Word.minAlign span
    ⟨some base, occupied, if cleared then m.fill base total 0 else m⟩

/-- Of the requests for the smallest alignment those from the limit on are refused. -/
theorem acquire_minAlign (cleared : Bool) (total : Nat) (s : TopSpace) (m : Memory) :
    acquire cleared total Word.minAlign s m =
      if maxRequest ≤ total then .done ⟨none, s, m⟩
      else (s.takeSpan (cellLength total)).map (outcomeOf cleared total s m) := by
  have hrequest : request total Word.minAlign = total := if_pos (Nat.le_refl _)
  have hexceeds : exceeds total Word.minAlign = decide (maxRequest ≤ total) := by
    rw [exceeds, hrequest, if_pos (Nat.le_refl _), Bool.or_self]
  rw [acquire, hexceeds, hrequest]
  by_cases h : maxRequest ≤ total
  · rw [if_pos (decide_eq_true h), if_pos h]
  · rw [if_neg (fun htrue => h (of_decide_eq_true htrue)), if_neg h]
    rfl

/-- Take a span of `length` bytes from the top. -/
def takeTop? (length : Nat) (s : TopSpace) : Option (Span × TopSpace) := do
  let (span, free) ← s.free.takeTop? length
  return (span, { s with free := free })

theorem outcomeOf_takeTop? (cleared : Bool) (m : Memory) {found : TopSpace}
    (h : cellLength total < found.room) :
    outcomeOf cleared total s m (found.takeTop? (cellLength total)) =
      ⟨some found.free.top.start, found.cutTop total,
        if cleared then m.fill found.free.top.start total 0 else m⟩ := by
  rw [takeTop?, FreeSpace.takeTop?_of_lt h, Option.bind_eq_bind, Option.bind_some, Option.pure_def]
  simp only [outcomeOf, occupy_top]

theorem takeSpan_eq (h : s.Stack stop blocks) (length : Nat) :
    s.takeSpan length =
      if length < s.room then .done (s.takeTop? length)
      else .ask (growthFor length) fun grant =>
        .done ((grant.bind s.extend?).bind (takeTop? length)) := by
  rw [takeSpan, FreeSpace.take?_eq_takeTop? h.holes h.spare, takeTop?]
  by_cases hroom : length < s.room
  · rw [if_pos hroom, FreeSpace.takeTop?_of_lt hroom]
    rfl
  · have hnone : s.free.takeTop? length = none := if_neg hroom
    rw [if_neg hroom, hnone]
    refine congrArg (Dialogue.ask _) (funext fun grant => congrArg Dialogue.done ?_)
    rw [Option.bind_assoc]
    rfl

/-- The top-space allocator follows the rule for all grants that suit. -/
theorem topRule : TopRule room maxRequest Suits Stack where
  room_empty := rfl
  empty := stack_empty
  refuses cleared s m h := (acquire_minAlign cleared _ s m).trans (if_pos h)
  takes := by
    intro s stop blocks total cleared m h htotal hroom
    have hacquire := acquire_minAlign cleared total s m
    rw [if_neg (Nat.not_le.mpr htotal), takeSpan_eq h, if_pos hroom, Dialogue.map,
      outcomeOf_takeTop? cleared m hroom] at hacquire
    exact ⟨_, _, _, hacquire, room_cutTop hroom, h.cutTop hroom⟩
  asks := by
    intro s stop blocks total cleared m h htotal hroom
    have hacquire := acquire_minAlign cleared total s m
    rw [if_neg (Nat.not_le.mpr htotal), takeSpan_eq h, if_neg (Nat.not_lt.mpr hroom),
      Dialogue.map] at hacquire
    refine ⟨_, hacquire, rfl, fun grant suits hnext hsize => ?_⟩
    have hlarge := lt_growthFor (cellLength total)
    obtain ⟨extended, hextend, hstack, hgained⟩ :=
      h.extend suits (show 80 < grant.size by omega) hnext
    have hlength : cellLength total < extended.room := by
      split at hgained <;> omega
    have hcut := room_cutTop hlength
    have htaken : ((some grant).bind s.extend?).bind (takeTop? (cellLength total)) =
        extended.takeTop? (cellLength total) := by
      rw [Option.bind_some, hextend, Option.bind_some]
    have houtcome := (congrArg (outcomeOf cleared total s m) htaken).trans
      (outcomeOf_takeTop? cleared m hlength)
    exact ⟨_, _, _, congrArg Dialogue.done houtcome, by omega, hstack.cutTop hlength⟩
  releases := by
    intro s stop block blocks m h
    have hcell := h.cells block List.mem_cons_self
    obtain ⟨hstack, hroom⟩ := h.vacate
    refine ⟨_, m, ?_, hroom, hstack⟩
    change release block s m = _
    rw [release, cellOf_eq_ok hcell]
    rfl

end TopSpace

end RegionHeap.Sized
