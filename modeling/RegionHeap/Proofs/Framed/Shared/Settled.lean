import RegionHeap.Proofs.Framed.Runs
import RegionHeap.Proofs.Framed.Shared

/-!
# What the memory will be

While calls are under way the memory has not got all the headers that it ought to
have. Beside it there is one that has them, in which the heap is intact and is
what a single client would have made of it that did the same deeds one after the
other. The two differ only in headers that are due, and those belong to the
threads whose calls are to write them. Each step of a thread keeps this up, and
leaves the blocks of all other threads alone.
-/
namespace RegionHeap.Framed.Shared

open Checked
open Growth (Provider)
open Sized (Allocator Contract Discreet)

variable {α ρ : Type} [Allocator α] [Provider ρ] {n : Nat}

/-- The heap with another memory, and the blocks that are held of it. -/
def settled (s : Shared α ρ n) (m : Memory) : Client (Framed α ρ) := s.client.withMemory m

/-- What a thread knows in its call: it owns the block, and the header that it has read or
is going to write is the one that the block ought to have. -/
def Proceeds (s : Shared α ρ n) (m : Memory) (thread : Fin n) : Activity → Prop
  | .idle => True
  | .calling request (.requested asked) =>
    asked = request ∧ request.Words ∧ ∀ user ∈ request.subject?, s.Owns thread user
  | .calling request (.entering critical) =>
    Call.opened m request = .entering critical ∧ request.Words ∧
      ∀ user ∈ request.subject?, s.Owns thread user
  | .calling _ (.framing user header) => s.Owns thread user ∧ s.register[user]? = some header
  | .calling _ (.answered _) => True

/-- The memory `m` has all headers, and is the memory of the heap but for those that are due. -/
structure Mirrors (Sound : α → ρ → Memory → Prop) (Fit : ρ → Prop) (start : Framed α ρ)
    (s : Shared α ρ n) (m : Memory) : Prop where
  intact : Intact Sound Fit (s.settled m).heap s.register
  sizes : s.register.Sizes s.client.held
  contents : Contents.Run s.deeds (s.settled m).contents
  alone : Discreet Sound → Client.Run ⟨start, ∅⟩ s.deeds (s.settled m)
  owned : ∀ {thread user}, s.Owns thread user → ∃ header, s.register[user]? = some header
  alike : ∀ {address}, (∀ thread, ¬(s.activities.get thread).Frames address) →
    s.client.heap.memory.byte address = m.byte address
  proceeds : ∀ thread, s.Proceeds m thread (s.activities.get thread)
  written : ∀ {user header}, s.register[user]? = some header →
    (∀ thread, (s.activities.get thread).framed? ≠ some user) → s.written[user]? = some header
  told : ∀ thread, s.told.get thread ++ (s.activities.get thread).owed = s.deedsOf thread

/-- Of what others own, a thread has changed neither the header nor any byte of the block. -/
structure Isolated (s : Shared α ρ n) (thread : Fin n) (next : Shared α ρ n) : Prop where
  kept : ∀ {other user} {header : Header}, s.Owns other user → other ≠ thread →
    s.register[user]? = some header →
    next.Owns other user ∧ next.register[user]? = some header
  bytes : ∀ {other user} {header : Header} {address}, s.Owns other user → other ≠ thread →
    s.register[user]? = some header → (header.block user).Has address →
    next.client.heap.memory.byte address = s.client.heap.memory.byte address

variable {Sound : α → ρ → Memory → Prop} {Fit : ρ → Prop} {start : Framed α ρ}
  {s next : Shared α ρ n} {m m' : Memory} {thread other : Fin n} {activity : Activity}
  {request : Request} {user address : Nat} {header : Header}

omit [Allocator α] [Provider ρ] in
theorem Owns.eq (h : s.Owns thread user) (hother : s.Owns other user) : thread = other :=
  Option.some.inj (h.symm.trans hother)

omit [Allocator α] [Provider ρ] in
theorem get_doing : (s.doing thread activity).activities.get other =
    if thread = other then activity else s.activities.get other := Record.get_set

omit [Allocator α] [Provider ρ] in
theorem get_tell {deed : Deed} : (s.tell thread deed).told.get other =
    if thread = other then s.told.get thread ++ [deed] else s.told.get other := Record.get_set

theorem getElem?_ownersAfter {owners : Std.TreeMap Nat (Fin n)} {answer : Option Nat} :
    (ownersAfter owners thread request answer)[user]? =
      if answer = some user then some thread
      else if request.ended? answer = some user then none else owners[user]? := by
  unfold ownersAfter
  cases answer <;> cases request.ended? _ <;>
    simp [Record.getElem?_insert, Record.getElem?_erase]

namespace Mirrors

section settled

variable (h : s.Mirrors Sound Fit start m)

include h

theorem owns_of_framed (hframed : (s.activities.get thread).framed? = some user) :
    s.Owns thread user ∧ ∃ header, s.register[user]? = some header := by
  have proceeds := h.proceeds thread
  cases hactivity : s.activities.get thread with
  | idle =>
    rw [hactivity] at hframed
    cases hframed
  | calling request call =>
    rw [hactivity] at hframed proceeds
    cases call with
    | framing framed header =>
      cases hframed
      exact ⟨proceeds.1, header, proceeds.2⟩
    | _ => cases hframed

theorem has_of_frames (hframes : (s.activities.get thread).Frames address) :
    ∃ user, ∃ header : Header, (s.activities.get thread).framed? = some user ∧
      s.register[user]? = some header ∧ (header.block user).Has address := by
  rcases hframes with ⟨user, hframed, hlow, hhigh⟩
  obtain ⟨-, header, hheader⟩ := h.owns_of_framed hframed
  have entry := h.intact.entry hheader
  exact ⟨user, header, hframed, hheader,
    Header.has_header entry.least entry.above hlow hhigh⟩

/-- In a block the two memories can only differ in its own header, while that is due. -/
theorem eq_of_has (hheader : s.register[user]? = some header)
    (hhas : (header.block user).Has address)
    (hbeside : ∀ thread, (s.activities.get thread).framed? = some user → user ≤ address) :
    s.client.heap.memory.byte address = m.byte address := by
  apply h.alike
  intro thread hframes
  obtain ⟨framed, old, hframed, hold, hhasOld⟩ := h.has_of_frames hframes
  by_cases hsame : user = framed
  · subst hsame
    obtain ⟨_, hagain, -, hhigh⟩ := hframes
    cases hframed.symm.trans hagain
    exact absurd hhigh (Nat.not_lt.mpr (hbeside thread hframed))
  · exact (h.intact.apart hheader hold hsame).not_has hhas hhasOld

theorem contents_eq : s.client.contents = (s.settled m).contents := by
  funext user
  have hheld : (s.settled m).held = s.client.held := rfl
  cases hsize : s.client.held[user]? with
  | none => rw [Client.contents_eq_none hsize, Client.contents_eq_none (hheld ▸ hsize)]
  | some size =>
    rw [Client.contents_eq_some hsize, Client.contents_eq_some (hheld ▸ hsize)]
    obtain ⟨header, hheader, rfl⟩ := Option.map_eq_some_iff.mp ((h.sizes user).symm.trans hsize)
    refine congrArg some (Memory.bytes_congr fun hi => ?_)
    apply h.eq_of_has hheader (Header.has_user (h.intact.entry hheader).above hi)
    exact fun _ _ => Nat.le_add_right _ _

/-- The header of a block that is not about to be written is the one that it ought to have. -/
theorem read_eq (howns : s.Owns thread user) (hframed : (s.activities.get thread).framed? = none)
    (hheader : s.register[user]? = some header) :
    Header.read s.client.heap.memory user = header := by
  have entry := h.intact.entry hheader
  refine Eq.trans (Header.read_congr entry.width_le fun hlow hhigh => ?_) entry.read
  apply h.eq_of_has hheader (Header.has_header entry.least entry.above hlow hhigh)
  intro other hother
  obtain rfl := howns.eq (h.owns_of_framed hother).1
  cases hframed.symm.trans hother

theorem behind (hframed : (s.activities.get thread).framed? = none)
    (hsubject : ∀ user ∈ request.subject?, s.Owns thread user) :
    s.client.heap.Behind m s.register request.subject? := by
  intro address
  by_cases hframes : ∃ other, (s.activities.get other).Frames address
  · obtain ⟨other, hframes⟩ := hframes
    obtain ⟨user, header, hother, hheader, hhas⟩ := h.has_of_frames hframes
    refine .inr ⟨user, header, hheader, fun hsame => ?_, hhas⟩
    obtain rfl := (hsubject user hsame).eq (h.owns_of_framed hother).1
    cases hframed.symm.trans hother
  · exact .inl (h.alike (not_exists.mp hframes))

theorem opened_eq (hframed : (s.activities.get thread).framed? = none)
    (hsubject : ∀ user ∈ request.subject?, s.Owns thread user) :
    Call.opened s.client.heap.memory request = Call.opened m request := by
  apply Call.opened_congr
  intro user huser
  obtain ⟨header, hheader⟩ := h.owned (hsubject user huser)
  exact (h.read_eq (hsubject user huser) hframed hheader).trans
    (h.intact.entry hheader).read.symm

theorem mem_held (howns : s.Owns thread user) : user ∈ s.client.held := by
  obtain ⟨header, hheader⟩ := h.owned howns
  exact Record.mem_iff.mpr ⟨header.size, by rw [h.sizes, hheader, Option.map_some]⟩

end settled

/-- A thread knows in its call what it knew before a step of another thread. -/
theorem proceeds_of_isolated (h : s.Mirrors Sound Fit start m)
    (hintact : Intact Sound Fit (next.settled m').heap next.register)
    (isolated : s.Isolated thread next) (hne : other ≠ thread)
    (hproceeds : s.Proceeds m other activity) : next.Proceeds m' other activity := by
  have howns : ∀ {user}, s.Owns other user → next.Owns other user := by
    intro user howns
    obtain ⟨header, hheader⟩ := h.owned howns
    exact (isolated.kept howns hne hheader).1
  cases activity with
  | idle => trivial
  | calling request call =>
    cases call with
    | requested asked =>
      obtain ⟨hasked, hwords, hsubject⟩ := hproceeds
      exact ⟨hasked, hwords, fun user huser => howns (hsubject user huser)⟩
    | entering critical =>
      obtain ⟨hopened, hwords, hsubject⟩ := hproceeds
      refine ⟨(Call.opened_congr fun user huser => ?_).trans hopened, hwords,
        fun user huser => howns (hsubject user huser)⟩
      obtain ⟨header, hheader⟩ := h.owned (hsubject user huser)
      have hkept := (isolated.kept (hsubject user huser) hne hheader).2
      exact (hintact.entry hkept).read.trans (h.intact.entry hheader).read.symm
    | framing user header => exact isolated.kept hproceeds.1 hne hproceeds.2
    | answered result => trivial

end Mirrors

end RegionHeap.Framed.Shared
