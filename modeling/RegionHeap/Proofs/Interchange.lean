import RegionHeap.Proofs.Framed.Runs
import RegionHeap.Proofs.Native.Runs
import RegionHeap.Proofs.Script
import RegionHeap.Proofs.Sized.Room

/-!
# Two heaps for one program

The native heap and a framed heap have nothing in common but the contract that
both keep. A program that is not refused a block for want of memory still cannot
tell one from the other: it is refused the same requests, and every byte that is
known at all is the same. The one exception are alignments that nobody should
ask for, which the host refuses and a framed heap replaces by its smallest.

That there is memory is said of the host and of the sized allocator alone, each
in the state that it is in when a request is made. Both heaps have to ask in such
a way that they are then given a block: the native heap by raising alignments and
never resizing to nothing, the framed heap by a total that is at least the alignment.
-/
namespace RegionHeap

open Checked
open Script (Action Answer Depicts IsNew Picture Played Refuses Shows Sketch Table)

namespace Request

/-- Zeroed elements whose number of bytes is no word. -/
def overflows (request : Request) : Bool := request.zeroes && Word.bound ≤ request.size

/-- The alignment is neither a power of two nor so small that it does not matter. -/
def irregular (request : Request) : Bool :=
  request.wish?.any fun align => !Word.isPowerOfTwo align && HostAllocator.addressSize < align

/-- The bytes that a request takes with its alignment, or with the smallest one if that is more. -/
def need (request : Request) : Nat :=
  request.size + max (request.wish?.getD Word.minAlign) Word.minAlign

theorem size_le_need (request : Request) : request.size ≤ request.need := Nat.le_add_right _ _

theorem overflows_iff {request : Request} :
    request.overflows ↔ request.zeroes ∧ Word.bound ≤ request.size := by
  rw [overflows, Bool.and_eq_true, decide_eq_true_eq]

theorem isNew_of_irregular {request : Request} (h : request.irregular) : IsNew request := by
  cases request with
  | resize block size => cases h
  | release block => cases h
  | _ => exact ⟨rfl, rfl⟩

theorem irregular_iff {request : Request} :
    request.irregular ↔ ∃ align, request.wish? = some align ∧
      ¬Word.isPowerOfTwo align ∧ HostAllocator.addressSize < align := by
  simp [irregular, Option.any_eq_true]

end Request

namespace Script

/-- The kind of an answer, without the address or the bytes. -/
def Answer.kind {β γ : Type} : Answer β γ → Answer Unit Unit
  | skipped => .skipped
  | placed _ => .placed ()
  | refused => .refused
  | released => .released
  | wrote => .wrote
  | bytes _ => .bytes ()

/-- The action may be refused even if there is memory. -/
def Action.Overflows (action : Action) : Prop := ∃ request ∈ action.new?, request.overflows

/-- No action asks for an alignment that only matters to some heaps. -/
def Regular (actions : List Action) : Prop :=
  ∀ action ∈ actions, ∀ request ∈ action.new?, ¬request.irregular

instance (actions : List Action) : Decidable (Regular actions) :=
  inferInstanceAs (Decidable (∀ action ∈ actions, ∀ request ∈ action.new?, ¬request.irregular))

variable {σ τ : Type} [Heap σ] [Heap τ]

/-- A script came to the same on two heaps, as far as anyone can know. -/
structure Interchangeable (actions : List Action) (first : Played σ) (second : Played τ) :
    Prop where
  kinds : first.answer.map Answer.kind = second.answer.map Answer.kind
  refused : ∀ i : Nat, first.answer[i]? = some .refused ↔
    ∃ action : Action, actions[i]? = some action ∧ action.Overflows ∧
      first.answer[i]? ≠ some .skipped
  sizes : ∀ slot, (first.state.contents slot).map List.length =
    (second.state.contents slot).map List.length
  known : ∀ slot (sketch : Sketch),
    (Picture.blank.run Request.overflows actions).2 slot = some sketch →
      ∃ bytes bytes', first.state.contents slot = some bytes ∧
        second.state.contents slot = some bytes' ∧ sketch.Tells bytes ∧ sketch.Tells bytes'
  read : ∀ (i : Nat) (sketch : Sketch),
    (Picture.blank.run Request.overflows actions).1[i]? = some (.bytes sketch) →
      ∃ bytes bytes', first.answer[i]? = some (.bytes bytes) ∧
        second.answer[i]? = some (.bytes bytes') ∧ sketch.Tells bytes ∧ sketch.Tells bytes'

section follows

variable {sketches : List (Answer Unit Sketch)} {told : List (Answer Nat (List UInt8))}
  {actions : List Action} {refuses : Request → Bool} {picture : Picture} {i : Nat}

theorem kinds_of_tells (h : List.Forall₂ Answer.Tells sketches told) :
    told.map Answer.kind = sketches.map Answer.kind := by
  induction h with
  | nil => rfl
  | cons htells _ ih =>
    rw [List.map_cons, List.map_cons, ih]
    cases htells <;> rfl

theorem bare_of_tells (h : List.Forall₂ Answer.Tells sketches told) (i : Nat) :
    (told[i]? = some .refused ↔ sketches[i]? = some .refused) ∧
      (told[i]? = some .skipped ↔ sketches[i]? = some .skipped) := by
  induction h generalizing i with
  | nil => simp
  | cons htells _ ih =>
    cases i with
    | zero => cases htells <;> simp
    | succ i => exact ih i

theorem bytes_of_tells (h : List.Forall₂ Answer.Tells sketches told) {sketch : Sketch}
    (hsketch : sketches[i]? = some (.bytes sketch)) :
    ∃ bytes, told[i]? = some (.bytes bytes) ∧ sketch.Tells bytes := by
  induction h generalizing i with
  | nil => cases hsketch
  | cons htells _ ih =>
    cases i with
    | zero =>
      obtain rfl := Option.some.inj hsketch
      cases htells with
      | bytes hbytes => exact ⟨_, rfl, hbytes⟩
    | succ i => exact ih hsketch

theorem length_of_rel {sketch : Option Sketch} {contents : Option (List UInt8)}
    (h : Option.Rel Sketch.Tells sketch contents) :
    contents.map List.length = sketch.map Sketch.size := by
  cases h with
  | none => rfl
  | some htells => exact congrArg some htells.length

theorem contents_of_rel {sketch : Sketch} {drawn : Option Sketch}
    {contents : Option (List UInt8)} (h : Option.Rel Sketch.Tells drawn contents)
    (hdrawn : drawn = some sketch) : ∃ bytes, contents = some bytes ∧ sketch.Tells bytes := by
  cases h with
  | none => cases hdrawn
  | some htells =>
    obtain rfl := Option.some.inj hdrawn
    exact ⟨_, rfl, htells⟩

/-- A picture refuses what it is told to refuse, and skips what makes no sense. -/
theorem Picture.refused_iff (refuses : Request → Bool) (picture : Picture) :
    (picture.run refuses actions).1[i]? = some .refused ↔ ∃ action, actions[i]? = some action ∧
      (∃ request ∈ action.new?, refuses request) ∧
      (picture.run refuses actions).1[i]? ≠ some .skipped := by
  induction actions generalizing picture i with
  | nil => simp [Picture.run]
  | cons action rest ih =>
    cases i with
    | succ i => exact ih (picture.step refuses action).2
    | zero =>
      simp only [Picture.run, List.getElem?_cons_zero, Option.some.injEq, exists_eq_left', ne_eq]
      cases action with
      | obtain slot request =>
        simp only [Picture.step, Action.new?]
        split
        · split
          · rename_i hrefuses
            simp [hrefuses]
          · rename_i hrefuses
            simp [hrefuses]
        · simp
      | resize slot size => simp [Picture.step, Action.new?]
      | release slot => simp [Picture.step, Action.new?]
      | write slot offset bytes =>
        simp only [Picture.step, Action.new?]
        split
        · simp
        · split <;> simp
      | read slot offset len =>
        simp only [Picture.step, Action.new?]
        split
        · simp
        · split <;> simp

theorem Picture.run_congr {refuses' : Request → Bool}
    (h : ∀ action ∈ actions, ∀ request ∈ action.new?, refuses request = refuses' request)
    (picture : Picture) : picture.run refuses actions = picture.run refuses' actions := by
  induction actions generalizing picture with
  | nil => rfl
  | cons action rest ih =>
    have hstep : picture.step refuses action = picture.step refuses' action := by
      cases action with
      | obtain slot request =>
        simp only [Picture.step, h _ List.mem_cons_self request rfl]
      | _ => rfl
    rw [Picture.run, Picture.run, hstep,
      ih fun other hother => h other (List.mem_cons_of_mem _ hother)]

theorem Interchangeable.of_shows {first : Played σ} {second : Played τ}
    (hfirst : Shows Request.overflows actions first)
    (hsecond : Shows Request.overflows actions second) : Interchangeable actions first second where
  kinds := (kinds_of_tells hfirst.answers).trans (kinds_of_tells hsecond.answers).symm
  refused i := by
    obtain ⟨hrefused, hskipped⟩ := bare_of_tells hfirst.answers i
    rw [hrefused, ne_eq, hskipped]
    exact Picture.refused_iff ..
  sizes slot := by
    rw [length_of_rel (hfirst.slots slot), length_of_rel (hsecond.slots slot)]
  known slot sketch hsketch := by
    obtain ⟨bytes, hbytes, htells⟩ := contents_of_rel (hfirst.slots slot) hsketch
    obtain ⟨bytes', hbytes', htells'⟩ := contents_of_rel (hsecond.slots slot) hsketch
    exact ⟨bytes, bytes', hbytes, hbytes', htells, htells'⟩
  read i sketch hsketch := by
    obtain ⟨bytes, hbytes, htells⟩ := bytes_of_tells hfirst.answers hsketch
    obtain ⟨bytes', hbytes', htells'⟩ := bytes_of_tells hsecond.answers hsketch
    exact ⟨bytes, bytes', hbytes, hbytes', htells, htells'⟩

end follows

end Script

namespace Native

variable {η : Type} [HostAllocator η] {Sound : η → Prop}

/-- The host takes this alignment. -/
def Takes (align : Nat) : Prop :=
  Word.isPowerOfTwo (max align HostAllocator.addressSize) ∧
    max align HostAllocator.addressSize % HostAllocator.addressSize = 0

instance (align : Nat) : Decidable (Takes align) := inferInstanceAs (Decidable (_ ∧ _))

/-- The host is not short of memory for the request, unless it never has any for such a one. -/
def Supplied (request : Request) (heap : Native η) : Prop :=
  request.releases = false → ¬request.overflows → ¬request.irregular →
    HostAllocator.Plenty request.need heap.host heap.memory

theorem not_takes_iff (align : Nat) :
    ¬Takes align ↔ ¬Word.isPowerOfTwo align ∧ HostAllocator.addressSize < align := by
  unfold Takes
  by_cases hsmall : align ≤ HostAllocator.addressSize
  · rw [Nat.max_eq_right hsmall]
    exact iff_of_false (by decide) fun h => Nat.not_lt.mpr hsmall h.2
  · have hlarge : HostAllocator.addressSize < align := Nat.lt_of_not_le hsmall
    rw [Nat.max_eq_left (Nat.le_of_lt hlarge), and_iff_left hlarge]
    refine not_congr (and_iff_left_of_imp fun hpower => Nat.mod_eq_zero_of_dvd ?_)
    exact Word.dvd_of_isPowerOfTwo (by decide) hpower (Nat.le_of_lt hlarge)

theorem takes_of_regular {request : Request} {align : Nat} (hregular : ¬request.irregular)
    (hwish : request.wish? = some align) : Takes align := by
  by_contra hbad
  exact hregular (Request.irregular_iff.mpr ⟨align, hwish, (not_takes_iff align).mp hbad⟩)

section answers

variable {heap : Native η} {held : Std.TreeMap Nat Nat} {request : Request}
  {reply : Reply (Option Nat) (Native η)}

/-- The alignment is raised to one that the host takes, and this costs no more than it may. -/
theorem base_allocateAligned {align size : Nat} (htakes : Takes align)
    (plenty : HostAllocator.Plenty (size + max align Word.minAlign) heap.host heap.memory) :
    (heap.allocateAligned align size).base ≠ none := by
  have hraised : max align HostAllocator.addressSize ≤ max align Word.minAlign :=
    Nat.max_le.mpr ⟨Nat.le_max_left .., Nat.le_trans (by decide) (Nat.le_max_right ..)⟩
  exact plenty.acquireAligned htakes (by omega)

theorem base_allocateZeroedAligned {align count size : Nat} (htakes : Takes align)
    (hword : count * size < Word.bound)
    (plenty : HostAllocator.Plenty (count * size + max align Word.minAlign) heap.host
      heap.memory) : (heap.allocateZeroedAligned align count size).base ≠ none := by
  have hbytes : Word.mul? count size = some (count * size) := if_pos hword
  obtain ⟨base, hbase⟩ := Option.ne_none_iff_exists'.mp (base_allocateAligned htakes plenty)
  simp only [allocateZeroedAligned, hbytes, hbase]
  exact Option.some_ne_none _

/-- A held block is resized to one byte at least, and to nothing only if there is no block. -/
theorem base_resize (contract : HostAllocator.Contract Sound) (h : Fits Sound heap held)
    {block : Option Nat} {size : Nat} (hheld : ∀ old ∈ block, old ∈ held)
    (plenty : HostAllocator.Plenty (size + Word.minAlign) heap.host heap.memory)
    {outcome : Outcome η}
    (hresize : HostAllocator.resize block (resizedTo block size) heap.host heap.memory =
      .ok outcome) : outcome.base ≠ none := by
  cases block with
  | none =>
    rw [contract.resizeNothing] at hresize
    obtain rfl := Except.ok.inj hresize
    exact plenty.acquire (Nat.le_add_right size _)
  | some old =>
    obtain ⟨oldSize, hold⟩ := Record.mem_iff.mp (hheld old rfl)
    obtain ⟨given, hlive, -⟩ := h.live hold
    have hpos : 0 < max size 1 := Nat.lt_of_lt_of_le Nat.zero_lt_one (Nat.le_max_right size 1)
    have hfits : max size 1 ≤ size + Word.minAlign :=
      Nat.max_le.mpr ⟨Nat.le_add_right size _, Nat.le_add_left 1 _⟩
    exact plenty.resize hlive hpos hfits hresize

/-- Where the host is not short of memory, the native heap refuses nothing that can be met. -/
theorem answer_of_plenty (contract : HostAllocator.Contract Sound) (h : Fits Sound heap held)
    (hheld : ∀ block ∈ request.subject?, block ∈ held) (hkeeps : request.releases = false)
    (hword : ¬request.overflows) (hregular : ¬request.irregular)
    (plenty : HostAllocator.Plenty request.need heap.host heap.memory)
    (hreply : Heap.serve request heap = .ok reply) : reply.answer ≠ none := by
  rw [Request.overflows_iff] at hword
  cases request with
  | allocate size =>
    obtain rfl := Except.ok.inj hreply
    exact plenty.acquire (Request.size_le_need (.allocate size))
  | allocateAligned align size =>
    obtain rfl := Except.ok.inj hreply
    exact base_allocateAligned (takes_of_regular hregular rfl) plenty
  | allocateZeroed count size =>
    obtain rfl := Except.ok.inj hreply
    have hproduct : count * size < Word.bound :=
      Nat.lt_of_not_le fun hbound => hword ⟨rfl, hbound⟩
    exact plenty.acquireZeroed hproduct (Request.size_le_need (.allocateZeroed count size))
  | allocateZeroedAligned align count size =>
    obtain rfl := Except.ok.inj hreply
    have hproduct : count * size < Word.bound :=
      Nat.lt_of_not_le fun hbound => hword ⟨rfl, hbound⟩
    exact base_allocateZeroedAligned (takes_of_regular hregular rfl) hproduct plenty
  | resize block size =>
    obtain ⟨outcome, houtcome, hnext⟩ := bind_eq_ok.mp hreply
    obtain rfl := Except.ok.inj hnext
    exact base_resize contract h hheld plenty houtcome
  | release block => cases hkeeps

theorem base_of_not_takes (contract : HostAllocator.Contract Sound) (hsound : Sound heap.host)
    {align size : Nat} (halign : align < Word.bound) (hsize : size < Word.bound)
    (hbad : ¬Takes align) : (heap.allocateAligned align size).base = none :=
  (contract.acquireAligned hsound (Nat.max_lt.mpr ⟨halign, by decide⟩) hsize).2 hbad

theorem answer_of_refused (contract : HostAllocator.Contract Sound) (hsound : Sound heap.host)
    (hwords : request.Words) (hbad : request.overflows ∨ request.irregular)
    (hreply : Heap.serve request heap = .ok reply) : reply.answer = none := by
  rcases hbad with hoverflow | hirregular
  · obtain ⟨hzeroes, hbound⟩ := Request.overflows_iff.mp hoverflow
    cases request with
    | allocateZeroed count size =>
      obtain rfl := Except.ok.inj hreply
      obtain ⟨-, hmet⟩ := contract.acquireZeroed (m := heap.memory) hsound hwords.1 hwords.2
      exact Option.eq_none_iff_forall_ne_some.mpr fun base hbase =>
        Nat.not_lt.mpr hbound (hmet hbase).1
    | allocateZeroedAligned align count size =>
      obtain rfl := Except.ok.inj hreply
      have hbytes : Word.mul? count size = none := if_neg (Nat.not_lt.mpr hbound)
      simp only [adopt, allocateZeroedAligned, hbytes]
    | _ => cases hzeroes
  · obtain ⟨align, hwish, hbad⟩ := Request.irregular_iff.mp hirregular
    have hrefused : ¬Takes align := (not_takes_iff align).mpr hbad
    cases request with
    | allocateAligned wish size =>
      obtain rfl := Option.some.inj hwish
      obtain rfl := Except.ok.inj hreply
      exact base_of_not_takes contract hsound hwords.1 hwords.2 hrefused
    | allocateZeroedAligned wish count size =>
      obtain rfl := Option.some.inj hwish
      obtain rfl := Except.ok.inj hreply
      simp only [adopt, allocateZeroedAligned]
      split
      · rfl
      · rename_i bytes hbytes
        obtain ⟨hword, rfl⟩ := Word.mul?_eq_some.mp hbytes
        have hnone := base_of_not_takes contract hsound hwords.1 hword hrefused
        simp only [hnone]
    | _ => cases hwish

end answers

theorem refuses (contract : HostAllocator.Contract Sound) :
    Refuses (Fits Sound) (fun request => request.overflows || request.irregular)
      (@Supplied η _) := by
  intro heap held request reply h hwords hheld hkeeps hsupplied hreply
  by_cases hbad : request.overflows ∨ request.irregular
  · exact iff_of_true (answer_of_refused contract h.sound hwords hbad hreply)
      ((Bool.or_eq_true _ _).mpr hbad)
  · obtain ⟨hword, hregular⟩ := not_or.mp hbad
    have plenty := hsupplied hkeeps hword hregular
    exact iff_of_false (answer_of_plenty contract h hheld hkeeps hword hregular plenty hreply)
      (mt (Bool.or_eq_true _ _).mp hbad)

theorem step_irregular (contract : HostAllocator.Contract Sound) {table : Table (Native η)}
    {picture : Picture} (h : Depicts (Fits Sound) table picture) {slot : Nat}
    (hslot : table.slots slot = none) {request : Request} (hwords : request.Words)
    (hbad : request.irregular) :
    ∃ reply, table.step (.obtain slot request) = .ok reply ∧ reply.answer = .refused ∧
      reply.state.contents = table.contents := by
  have hnew := Request.isNew_of_irregular hbad
  -- The host need not have any memory for this.
  obtain ⟨reply, hreply, hafter⟩ := h.serve_new (meets_contract contract) (refuses contract) hnew
    hwords (fun _ _ hregular => absurd hbad hregular) slot
  rw [if_pos (by rw [hbad, Bool.or_true])] at hafter
  exact ⟨reply, (Table.step_obtain hslot hnew).trans hreply, hafter.1, hafter.2.1⟩

end Native

namespace Framed

open Growth (Provider)
open Sized (Allocator)

variable {α ρ : Type} [Allocator α] [Provider ρ] {Sound : α → ρ → Memory → Prop} {Fit : ρ → Prop}

/-- The alignment that counts for a request: the one of its block, or the one in force for it. -/
def effectiveAlign (request : Request) (heap : Framed α ρ) : Nat :=
  match request.subject? with
  | some user => (Header.read heap.memory user).align
  | none => Header.alignFor (request.wish?.getD Word.minAlign)

/-- The size and the alignment make a word together, unless the size itself is none. -/
def Roomy (request : Request) (heap : Framed α ρ) : Prop :=
  request.overflows ∨ request.size + heap.effectiveAlign request < Word.bound

instance (request : Request) (heap : Framed α ρ) : Decidable (Roomy request heap) :=
  inferInstanceAs (Decidable (_ ∨ _))

/-- The allocator and its provider are not short of memory for the request. -/
def Supplied (request : Request) (heap : Framed α ρ) : Prop :=
  request.releases = false → ¬request.overflows →
    Sized.Plenty (request.size + heap.effectiveAlign request) heap.level heap.allocator
      heap.provider heap.memory

variable {request : Request} {heap : Framed α ρ}

omit [Allocator α] [Provider ρ] in
theorem opened_of_overflow (h : request.overflows) :
    Call.opened heap.memory request = .answered none := by
  obtain ⟨hzeroes, hbound⟩ := Request.overflows_iff.mp h
  have hnew : request.subject? = none := by
    cases request <;> first | rfl | cases hzeroes
  have hkeeps : request.releases = false := by
    cases request <;> first | rfl | cases hzeroes
  rw [Call.opened_of_new ∅ heap.memory hnew hkeeps, if_neg (by omega)]

section plenty

variable {register : Register} {header : Header} {reply : Reply (Option Nat) (Framed α ρ)}

theorem answer_of_new (hnew : request.subject? = none) (hkeeps : request.releases = false)
    (hword : request.size + register.alignFor request < Word.bound)
    (plenty : Sized.Plenty (request.size + register.alignFor request) heap.level heap.allocator
      heap.provider heap.memory)
    (hreply : heap.serve request = .ok reply) : reply.answer ≠ none := by
  have proper := Register.proper_headerFor hnew hword
  rw [serve_new_eq register hnew hkeeps hword] at hreply
  obtain ⟨placed, hplaced, hnext⟩ := bind_eq_ok.mp hreply
  obtain rfl := Except.ok.inj hnext
  have hbase := plenty.acquire proper.power (Nat.le_add_left _ _) (Nat.le_refl _) hplaced
  exact fun hnone => hbase (Option.map_eq_none_iff.mp hnone)

theorem answer_of_resize (contract : Sized.Contract Sound)
    (h : heap.Intact Sound Fit register) {user size : Nat} (hheader : register[user]? = some header)
    (hword : size + header.align < Word.bound)
    (plenty : Sized.Plenty (size + header.align) heap.level heap.allocator heap.provider
      heap.memory)
    (hreply : heap.serve (.resize (some user) size) = .ok reply) : reply.answer ≠ none := by
  have entry := h.entry hheader
  obtain ⟨dialogue, hdialogue, -⟩ := contract.resize h.sound entry.live hword
  rw [serve_resize_eq entry.read entry.blockOf_eq_ok hword hdialogue] at hreply
  obtain ⟨placed, hplaced, hnext⟩ := bind_eq_ok.mp hreply
  obtain rfl := Except.ok.inj hnext
  have hbase := plenty.resize entry.live (Nat.le_add_left _ _) (Nat.le_refl _) hdialogue hplaced
  exact fun hnone => hbase (Option.map_eq_none_iff.mp hnone)

end plenty

theorem refuses (contract : Sized.Contract Sound) :
    Refuses (Fits Sound Fit) Request.overflows
      fun request heap => Roomy request heap ∧ Supplied request heap := by
  intro heap held request reply hfits _ hheld hkeeps hsupplied hreply
  rcases hfits with ⟨register, intact, sizes⟩
  by_cases hoverflow : request.overflows
  · rw [show Heap.serve request heap = _ from serve_of_answered (opened_of_overflow hoverflow)]
      at hreply
    obtain rfl := Except.ok.inj hreply
    exact iff_of_true rfl hoverflow
  · have hroom := hsupplied.1.resolve_left hoverflow
    have plenty := hsupplied.2 hkeeps hoverflow
    refine iff_of_false ?_ hoverflow
    rcases Request.new_or_resize hkeeps with hnew | ⟨user, size, rfl⟩
    · have halign : heap.effectiveAlign request = register.alignFor request := by
        simp only [effectiveAlign, hnew, Register.alignFor_of_new hnew]
      rw [halign] at hroom plenty
      exact answer_of_new hnew hkeeps hroom plenty hreply
    · obtain ⟨header, hheader⟩ := sizes.mem (hheld user rfl)
      have halign : heap.effectiveAlign (.resize (some user) size) = header.align :=
        congrArg Header.align (intact.entry hheader).read
      rw [halign] at hroom plenty
      exact answer_of_resize contract intact hheader hroom plenty hreply

theorem step_obtain (contract : Sized.Contract Sound) (reliable : Provider.Reliable Fit)
    {table : Table (Framed α ρ)} {picture : Picture}
    (h : Depicts (Fits Sound Fit) table picture) {slot : Nat} (hslot : table.slots slot = none)
    (hwords : request.Words) (hnew : IsNew request)
    (hsupplied : Roomy request table.client.heap ∧ Supplied request table.client.heap) :
    ∃ reply, table.step (.obtain slot request) = .ok reply ∧
      if request.overflows then
        reply.answer = .refused ∧ reply.state.contents = table.contents
      else ∃ block, reply.answer = .placed block ∧ block % Word.minAlign = 0 := by
  obtain ⟨reply, hreply, hafter⟩ :=
    h.serve_new (meets_contract contract reliable) (refuses contract) hnew hwords hsupplied slot
  refine ⟨reply, (Table.step_obtain hslot hnew).trans hreply, ?_⟩
  split at hafter
  · rename_i hoverflow
    rw [if_pos hoverflow]
    exact ⟨hafter.1, hafter.2.1⟩
  · rename_i hoverflow
    rw [if_neg hoverflow]
    obtain ⟨⟨block, hanswer, hblock⟩, depicts⟩ := hafter
    exact ⟨block, hanswer, aligned_of_fits depicts.fits (depicts.mem_held hblock)⟩

end Framed

section interchange

open Growth (Provider)
open Script (Interchangeable Regular)
open Sized (Allocator)

variable {η α ρ : Type} [HostAllocator η] [Allocator α] [Provider ρ] {SoundHost : η → Prop}
  {Sound : α → ρ → Memory → Prop} {Fit : ρ → Prop} {native : Native η} {framed : Framed α ρ}
  {actions : List Action}

/-- Where no alignment is irregular, the native heap refuses what a framed heap refuses. -/
theorem Script.Shows.of_regular {σ : Type} [Heap σ] {played : Played σ} (hregular : Regular actions)
    (h : Shows (fun request => request.overflows || request.irregular) actions played) :
    Shows Request.overflows actions played := by
  have hpicture : Picture.blank.run (fun request => request.overflows || request.irregular)
      actions = Picture.blank.run Request.overflows actions :=
    Picture.run_congr (fun action haction request hrequest => by
      simp [hregular action haction request hrequest]) _
  rcases h with ⟨answers, slots⟩
  rw [hpicture] at answers slots
  exact ⟨answers, slots⟩

section room

open Growth (Break)
open Sized (TopSpace)

/-- The ascending host has room for the request. -/
def Native.HasRoom (request : Request) (heap : Native Ascending) : Prop :=
  request.overflows ∨ heap.host.HasRoom request.need

instance (request : Request) (heap : Native Ascending) : Decidable (Native.HasRoom request heap) :=
  inferInstanceAs (Decidable (_ ∨ _))

theorem Native.HasRoom.supplied {request : Request} {heap : Native Ascending}
    (h : HasRoom request heap) : Supplied request heap := fun _ hword _ =>
  Ascending.plenty (h.resolve_left hword) heap.memory

/-- The break of a new process has room for the request. -/
def Framed.HasRoom (request : Request) (heap : Framed TopSpace Break) : Prop :=
  Roomy request heap ∧ heap.provider.session = Break.fresh.session ∧ (request.overflows ∨
    heap.allocator.HasRoom (request.size + heap.effectiveAlign request) heap.provider)

instance (request : Request) (heap : Framed TopSpace Break) :
    Decidable (Framed.HasRoom request heap) := inferInstanceAs (Decidable (_ ∧ _))

theorem Framed.HasRoom.supplied {request : Request} {heap : Framed TopSpace Break}
    (h : HasRoom request heap) : Roomy request heap ∧ Supplied request heap := by
  obtain ⟨hroomy, hsession, hroom⟩ := h
  refine ⟨hroomy, fun _ hword => ?_⟩
  exact TopSpace.plenty (hroom.resolve_left hword) (hsession ▸ Break.sound_fresh) _ _

end room

/-- A script that is supplied with memory comes to the same on the native heap and on a
framed heap. Only where an alignment is irregular do they part: the native heap refuses, and
the framed heap gives a block of its smallest alignment, unless the size itself is no word. -/
theorem interchange_of_run (host : HostAllocator.Contract SoundHost)
    (hsound : SoundHost native.host)
    (hnone : ∀ base size, ¬HostAllocator.Live native.host base size)
    (contract : Sized.Contract Sound) (reliable : Provider.Reliable Fit)
    (fresh : framed.Fresh Sound Fit) (hwords : ∀ action ∈ actions, action.Words)
    (hnative : (Table.blank native).Throughout Native.Supplied actions)
    (hframed : (Table.blank framed).Throughout
      (fun request heap => Framed.Roomy request heap ∧ Framed.Supplied request heap) actions) :
    ∃ first second, (Table.blank native).run actions = .ok first ∧
      (Table.blank framed).run actions = .ok second ∧
      Shows (fun request => request.overflows || request.irregular) actions first ∧
      Shows Request.overflows actions second ∧
      (Regular actions → Interchangeable actions first second) ∧
      ∀ {slot request}, request.Words → request.irregular →
        (first.state.slots slot = none → ∃ reply,
          first.state.step (.obtain slot request) = .ok reply ∧ reply.answer = .refused ∧
          reply.state.contents = first.state.contents) ∧
        (second.state.slots slot = none → Framed.Roomy request second.state.client.heap →
          Framed.Supplied request second.state.client.heap → ∃ reply,
            second.state.step (.obtain slot request) = .ok reply ∧
            if request.overflows then
              reply.answer = .refused ∧ reply.state.contents = second.state.contents
            else ∃ block, reply.answer = .placed block ∧ block % Word.minAlign = 0) := by
  obtain ⟨first, hfirst, shows, depicts⟩ := Script.run_shows (Native.meets_contract host)
    (Native.refuses host) (fun _ _ => rfl) (Native.fits_of_nothing hsound hnone) hwords hnative
  obtain ⟨second, hsecond, shows', depicts'⟩ :=
    Script.run_shows (Framed.meets_contract contract reliable) (Framed.refuses contract)
      (fun _ _ => rfl) (fresh.fits contract) hwords hframed
  refine ⟨first, second, hfirst, hsecond, shows, shows', fun hregular =>
    .of_shows (shows.of_regular hregular) shows', fun {slot request} hword hbad => ⟨?_, ?_⟩⟩
  · exact fun hslot => Native.step_irregular host depicts hslot hword hbad
  · intro hslot hroomy hsupplied
    exact Framed.step_obtain contract reliable depicts' hslot hword
      (Request.isNew_of_irregular hbad) ⟨hroomy, hsupplied⟩

/-- A script with a block of no bytes that is resized to no bytes, a known byte that outlives
a resize, and a number of elements that is too large. -/
def Script.tour : List Action :=
  [.obtain 0 (.allocateAligned 64 0), .obtain 1 (.allocateZeroed 1 5), .write 1 3 [7],
    .resize 1 8, .obtain 2 (.allocateZeroed (1 <<< 63) 2), .read 1 3 2, .resize 0 0]

open Script (tour) in
/-- On either heap the script reads back what it wrote; an alignment of 24 then tells them
apart. -/
theorem interchange_of_run_tour : ∃ first second,
    (Table.blank (Native.initial : Native Ascending)).run tour = .ok first ∧
    (Table.blank Framed.onBreak).run tour = .ok second ∧ Interchangeable tour first second ∧
    second.answer[5]? = some (.bytes [7, 0]) ∧
    (∃ reply, first.state.step (.obtain 2 (.allocateAligned 24 5)) = .ok reply ∧
      reply.answer = .refused) ∧
    ∃ reply block, second.state.step (.obtain 2 (.allocateAligned 24 5)) = .ok reply ∧
      reply.answer = .placed block ∧ block % Word.minAlign = 0 := by
  have hsound : Ascending.Sound (Native.initial : Native Ascending).host := Ascending.sound_empty
  have hnative : (Table.blank (Native.initial : Native Ascending)).Throughout
      Native.HasRoom tour := by decide +kernel
  have hframed : (Table.blank Framed.onBreak).Throughout Framed.HasRoom tour := by
    decide +kernel
  obtain ⟨first, second, hfirst, hsecond, -, -, hregular, hparts⟩ :=
    interchange_of_run Ascending.meets_contract hsound
      (by simp [HostAllocator.Live, Native.initial, HostAllocator.empty])
      Sized.TopSpace.meets_contract Growth.Break.reliable Framed.onBreak_fresh (by decide)
      (hnative.mono Native.HasRoom.supplied) (hframed.mono Framed.HasRoom.supplied)
  have hempty : first.state.slots 2 = none := by
    have hcomputed : (do
        let first ← (Table.blank (Native.initial : Native Ascending)).run tour
        return first.state.slots 2 : Checked _) = .ok none := by decide +kernel
    rw [hfirst] at hcomputed
    exact Except.ok.inj hcomputed
  have hcomputed : (do
      let second ← (Table.blank Framed.onBreak).run tour
      let heap := second.state.client.heap
      return (second.answer[5]?, second.state.slots 2,
        decide (Framed.HasRoom (.allocateAligned 24 5) heap)) : Checked _) =
        .ok (some (.bytes [7, 0]), none, true) := by decide +kernel
  rw [hsecond] at hcomputed
  simp only [ok_bind, pure_eq_ok, Except.ok.injEq, Prod.mk.injEq, decide_eq_true_eq]
    at hcomputed
  obtain ⟨hread, hslot, hroom⟩ := hcomputed
  obtain ⟨hnever, halways⟩ := @hparts 2 (.allocateAligned 24 5) (by decide) (by decide)
  obtain ⟨refused, hrefused, hanswer, -⟩ := hnever hempty
  obtain ⟨placed, hplaced, block, hblock, haligned⟩ :=
    halways hslot hroom.supplied.1 hroom.supplied.2
  exact ⟨first, second, hfirst, hsecond, hregular (by decide), hread,
    ⟨refused, hrefused, hanswer⟩, placed, block, hplaced, hblock, haligned⟩

end interchange

end RegionHeap
