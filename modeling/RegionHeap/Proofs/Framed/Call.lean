import RegionHeap.Proofs.Framed.Register
import RegionHeap.Proofs.Sized.Contract

/-!
# How a single call goes

A call that nobody comes between is decided when its arguments are checked: it
is either answered at once, and then it has done nothing at all, or it uses the
allocator once, on a block whose header is on record or for a block of the
requested size and the alignment in force. After that nothing is left to do but
to write the header of the block that came back.
-/
namespace RegionHeap.Framed

open Checked
open Growth (Provider)
open Sized (Allocator)

variable {α ρ : Type} [Allocator α] [Provider ρ] {heap : Framed α ρ} {request : Request}

/-- The answer and the heap after a use of the allocator for a block with the header. -/
def settled (heap : Framed α ρ) (header : Header) (reply : Reply (Outcome α) ρ) :
    Reply (Option Nat) (Framed α ρ) where
  answer := reply.answer.base.map (· + header.align)
  state := { heap with
    allocator := reply.answer.state
    provider := reply.state
    memory := match reply.answer.base with
      | some base => header.write (base + header.align) reply.answer.memory
      | none => reply.answer.memory }
  events := reply.events

theorem serve_of_answered (h : Call.opened heap.memory request = .answered none) :
    heap.serve request = .ok ⟨none, heap, []⟩ := by
  change (heap.step (Call.opened heap.memory request)).bind _ = _
  rw [h]
  rfl

/-- Once the allocator has given its outcome, the header is written and nothing else is done. -/
theorem serve_of_placed {critical : Critical} {header : Header}
    {dialogue : Sized.Dialogue (Outcome α)}
    (h : Call.opened heap.memory request = .entering critical)
    (henter : heap.enter critical = heap.place header dialogue) :
    heap.serve request = (do
      let reply ← dialogue.run heap.level heap.provider
      return heap.settled header reply) := by
  change (heap.step (Call.opened heap.memory request)).bind _ = _
  rw [h]
  change (heap.enter critical).bind _ = _
  rw [henter, place]
  cases dialogue.run heap.level heap.provider with
  | error fault => rfl
  | ok reply =>
    obtain ⟨⟨base, allocator, memory⟩, provider, events⟩ := reply
    cases base with
    | none => exact congrArg Except.ok (congrArg _ (List.append_nil events))
    | some base => exact congrArg Except.ok (congrArg _ (List.append_nil events))

theorem serve_of_release {user : Nat} {header : Header} {block : Sized.Block} {allocator : α}
    {memory : Memory}
    (h : Call.opened heap.memory request = .entering (.release user header))
    (hblock : blockOf user header = .ok block)
    (hrelease : Allocator.release block heap.allocator heap.memory = .ok (allocator, memory)) :
    heap.serve request =
      .ok ⟨none, { heap with allocator := allocator, memory := memory }, []⟩ := by
  change (heap.step (Call.opened heap.memory request)).bind _ = _
  rw [h]
  change (heap.enter (.release user header)).bind _ = _
  rw [enter, hblock, ok_bind, hrelease]
  rfl

namespace Call

theorem forBlock_eq (cleared : Bool) (wish size : Nat) :
    forBlock cleared wish size =
      if size + Header.alignFor wish < Word.bound then
        entering (.acquire cleared ⟨size, Header.alignFor wish⟩ (size + Header.alignFor wish))
      else answered none := by
  by_cases h : size + Header.alignFor wish < Word.bound
  · have hsum : Word.add? size (Header.alignFor wish) = some (size + Header.alignFor wish) :=
      if_pos h
    rw [if_pos h]
    simp only [forBlock, hsum]
  · have hsum : Word.add? size (Header.alignFor wish) = none := if_neg h
    rw [if_neg h]
    simp only [forBlock, hsum]

/-- If the number of bytes is no word, neither is the total. -/
theorem forElements_eq (wish count size : Nat) :
    forElements wish count size =
      if count * size + Header.alignFor wish < Word.bound then
        entering (.acquire true ⟨count * size, Header.alignFor wish⟩
          (count * size + Header.alignFor wish))
      else answered none := by
  by_cases h : count * size < Word.bound
  · have hbytes : Word.mul? count size = some (count * size) := if_pos h
    rw [← forBlock_eq]
    simp only [forElements, hbytes]
  · have hbytes : Word.mul? count size = none := if_neg h
    rw [if_neg (by omega)]
    simp only [forElements, hbytes]

theorem opened_of_new (register : Register) (m : Memory) (hnew : request.subject? = none)
    (h : request.releases = false) :
    opened m request =
      if request.size + register.alignFor request < Word.bound then
        entering (.acquire request.zeroes (register.headerFor request)
          (request.size + register.alignFor request))
      else answered none := by
  cases request with
  | allocateZeroed count size => exact forElements_eq Word.minAlign count size
  | allocateZeroedAligned align count size => exact forElements_eq align count size
  | allocate size => exact forBlock_eq false Word.minAlign size
  | allocateAligned align size => exact forBlock_eq false align size
  | resize block size =>
    obtain rfl : block = none := hnew
    exact forBlock_eq false Word.minAlign size
  | release block => cases h

theorem opened_resize (m : Memory) (user size : Nat) :
    opened m (.resize (some user) size) =
      if size + (Header.read m user).align < Word.bound then
        entering (.resize user (Header.read m user) size (size + (Header.read m user).align))
      else answered none := by
  by_cases h : size + (Header.read m user).align < Word.bound
  · have hsum : Word.add? size (Header.read m user).align =
        some (size + (Header.read m user).align) := if_pos h
    rw [if_pos h]
    simp only [opened, hsum]
  · have hsum : Word.add? size (Header.read m user).align = none := if_neg h
    rw [if_neg h]
    simp only [opened, hsum]

/-- The total that the allocator is asked for is a word. -/
def Words : Critical → Prop
  | .acquire _ _ total => total < Word.bound
  | .resize _ _ _ total => total < Word.bound
  | .release _ _ => True

/-- A call is answered when its arguments are checked, or it goes on to the allocator. -/
theorem opened_cases (m : Memory) (request : Request) :
    opened m request = answered none ∨
      ∃ critical, opened m request = entering critical ∧ Words critical := by
  cases hkeeps : request.releases with
  | true =>
    cases request with
    | release block =>
      cases block with
      | none => exact .inl rfl
      | some user => exact .inr ⟨_, rfl, trivial⟩
    | _ => cases hkeeps
  | false =>
    rcases Request.new_or_resize hkeeps with hnew | ⟨user, size, rfl⟩
    · rw [opened_of_new ∅ m hnew hkeeps]
      split
      · rename_i hword
        exact .inr ⟨_, rfl, hword⟩
      · exact .inl rfl
    · rw [opened_resize]
      split
      · rename_i hword
        exact .inr ⟨_, rfl, hword⟩
      · exact .inl rfl

theorem opened_congr {m m' : Memory}
    (h : ∀ user ∈ request.subject?, Header.read m' user = Header.read m user) :
    opened m' request = opened m request := by
  cases request with
  | resize block size =>
    cases block with
    | none => rfl
    | some user => rw [opened_resize, opened_resize, h user rfl]
  | release block =>
    cases block with
    | none => rfl
    | some user => rw [opened, opened, h user rfl]
  | _ => rfl

end Call

theorem serve_new_eq (register : Register) (hnew : request.subject? = none)
    (h : request.releases = false)
    (hword : request.size + register.alignFor request < Word.bound) :
    heap.serve request = (do
      let reply ← (Allocator.acquire request.zeroes (request.size + register.alignFor request)
        (register.alignFor request) heap.allocator heap.memory).run heap.level heap.provider
      return heap.settled (register.headerFor request) reply) := by
  have hopened := Call.opened_of_new register heap.memory hnew h
  rw [if_pos hword] at hopened
  exact serve_of_placed hopened rfl

theorem serve_resize_eq {user size : Nat} {old : Header} {dialogue : Sized.Dialogue (Outcome α)}
    (hread : Header.read heap.memory user = old) (hblock : blockOf user old = .ok (old.block user))
    (hword : size + old.align < Word.bound)
    (hdialogue : Allocator.resize (old.block user) (size + old.align) heap.allocator heap.memory =
      .ok dialogue) :
    heap.serve (.resize (some user) size) = (do
      let reply ← dialogue.run heap.level heap.provider
      return heap.settled ⟨size, old.align⟩ reply) := by
  have hopened := Call.opened_resize heap.memory user size
  rw [hread, if_pos hword] at hopened
  apply serve_of_placed hopened
  rw [enter, hblock, ok_bind, hdialogue, ok_bind]

end RegionHeap.Framed
