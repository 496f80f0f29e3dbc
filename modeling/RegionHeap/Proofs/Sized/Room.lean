import RegionHeap.Proofs.Growth.Source.Adapter
import RegionHeap.Proofs.Sized.TopRule

/-!
# Room for the top-space allocator

The top-space allocator refuses what its source refuses, or what a grant is of no use for. A
break grants until it comes to its end, and what it grants lies where the newest grant stops or
above. As long as it is far enough from its end, nothing is refused.
-/
namespace RegionHeap.Sized.TopSpace

open Checked
open Growth (Break Source.obtain)
open Growth.Source (multiple obtain_of_room)

/-- The top is below the break, which can be moved by what a block of `n` bytes takes in its
cell, with its alignment and rounded up. -/
structure HasRoom (n : Nat) (s : TopSpace) (process : Break) : Prop where
  top : s.free.top.start ≤ s.stop ∧ s.free.top.stop ≤ s.stop
  stop : s.stop ≤ process.top
  base : 0 < process.top ∧ process.top % 16 = 0
  limit : process.top + 2 * n + process.session.ensureReady.pageSize + (1 <<< 17) ≤ 1 <<< 47

instance (n : Nat) (s : TopSpace) (process : Break) : Decidable (s.HasRoom n process) :=
  decidable_of_iff (_ ∧ _ ∧ _ ∧ _)
    ⟨fun ⟨top, stop, base, limit⟩ => ⟨top, stop, base, limit⟩,
      fun ⟨top, stop, base, limit⟩ => ⟨top, stop, base, limit⟩⟩

variable {n : Nat} {s : TopSpace} {process : Break} {level : Trace.Level} {m : Memory}
  {block : Block} {cell : Cell} {total align length bytes : Nat}

theorem cellLength_le (total : Nat) : cellLength total ≤ total + 32 := by
  have hceiling := Word.ceiling_lt (total + 8) (show 0 < 16 by decide)
  exact Nat.max_le.mpr ⟨Nat.le_add_left _ _, by omega⟩

theorem request_le (halign : align ≤ total) : request total align ≤ 2 * total + 88 := by
  have hcell := cellLength_le total
  unfold request
  split <;> omega

section room

variable (h : s.HasRoom n process)

include h

theorem not_exceeds (halign : align ≤ total) (htotal : total ≤ n) : exceeds total align = false := by
  have hlimit := h.limit
  have hrequest := request_le halign
  have hbound : maxRequest = (1 <<< 64) - 65639 := rfl
  rw [exceeds, Bool.or_eq_false_iff, decide_eq_false_iff_not, decide_eq_false_iff_not]
  constructor
  · split <;> omega
  · omega

/-- What the break grants can be used, with the top or instead of it. -/
theorem extend?_of_room (hbytes : length + 96 ≤ bytes) (hword : process.top + bytes ≤ Word.bound) :
    ∃ extended, s.extend? ⟨process.top, bytes⟩ = some extended ∧ length < extended.room := by
  obtain ⟨⟨hstart, htop⟩, hstop, ⟨hpos, hbase⟩, -⟩ := h
  have hguard : process.top ≠ 0 ∧ s.stop ≤ process.top ∧ process.top + bytes ≤ Word.bound :=
    ⟨Nat.ne_of_gt hpos, hstop, hword⟩
  have hlimit : process.top + length + 17 ≤ (process.top + bytes - 64) / 16 * 16 := by omega
  unfold extend?
  simp only [guard, if_pos hguard]
  by_cases hnext : process.top = s.stop
  · have hroom : s.free.top.stop < (process.top + bytes - 64) / 16 * 16 := by omega
    simp only [if_pos hnext, if_pos hroom]
    refine ⟨_, rfl, ?_⟩
    simp only [room, FreeSpace.stretchTop, Span.length]
    omega
  · have hceiling : Word.ceiling (process.top + 16) 16 = process.top + 16 := by
      simp only [Word.ceiling]
      omega
    have hroom : process.top + 16 < (process.top + bytes - 64) / 16 * 16 := by omega
    simp only [if_neg hnext, hceiling, if_pos hroom]
    refine ⟨_, rfl, ?_⟩
    simp only [room, FreeSpace.replaceTop, Span.length]
    omega

variable (hsession : process.session.Sound)

include hsession

/-- A span that is missing is asked for with a margin, in pages, and the break is moved so far. -/
theorem obtain_growthFor (hlength : length ≤ 2 * n + 128) (level : Trace.Level) :
    ∃ bytes next events, length + 96 ≤ bytes ∧ process.top + bytes ≤ Word.bound ∧
      Source.obtain level (growthFor length) process =
        .ok ⟨some ⟨process.top, bytes⟩, next, events⟩ := by
  have hlimit := h.limit
  have hpage := Word.pos_of_isPowerOfTwo hsession.ensureReady.power
  have hasked : growthFor length < length + 96 + 65536 :=
    Word.ceiling_lt (length + 96) (by decide)
  have hneeded : length + 96 ≤ growthFor length := Word.le_ceiling (length + 96) (by decide)
  have hrounded : multiple (growthFor length) process < growthFor length +
    process.session.ensureReady.pageSize := Word.ceiling_lt _ hpage
  have henough : growthFor length ≤ multiple (growthFor length) process :=
    Word.le_ceiling _ hpage
  have hword : (1 <<< 47 : Nat) < Word.max := by decide
  have hmax : Word.bound = Word.max + 1 := rfl
  exact ⟨_, _, _, by omega, by omega, obtain_of_room level hsession
    (show growthFor length < Word.bound by omega) rfl (by omega) (by omega)⟩

theorem takeSpan_of_room (hlength : length ≤ 2 * n + 128)
    {reply : Reply (Option (Span × TopSpace)) Break}
    (hrun : (s.takeSpan length).run level process = .ok reply) : reply.answer ≠ none := by
  unfold takeSpan at hrun
  split at hrun
  · obtain rfl := Except.ok.inj hrun
    exact Option.some_ne_none _
  · obtain ⟨first, rest, hfirst, hrest, rfl⟩ := Dialogue.run_ask_eq_ok.mp hrun
    obtain ⟨bytes, next, events, hbytes, hword, hobtain⟩ :=
      obtain_growthFor h hsession hlength level
    obtain rfl := Except.ok.inj (hobtain.symm.trans hfirst)
    obtain ⟨extended, hextend, hroom⟩ := extend?_of_room h hbytes hword
    obtain rfl := Except.ok.inj hrest
    simp [hextend, FreeSpace.takeTop?_of_lt hroom]

theorem acquire_of_room (cleared : Bool) (halign : align ≤ total) (htotal : total ≤ n)
    {reply : Reply (Outcome TopSpace) Break}
    (hrun : (acquire cleared total align s m).run level process = .ok reply) :
    reply.answer.base ≠ none := by
  have hlength := cellLength_le (request total align)
  have hrequest := request_le halign
  rw [acquire, not_exceeds h halign htotal, if_neg Bool.false_ne_true] at hrun
  obtain ⟨taken, htaken, hanswer⟩ := Dialogue.answer_of_map hrun
  obtain ⟨⟨span, found⟩, hsome⟩ := Option.ne_none_iff_exists'.mp
    (takeSpan_of_room h hsession (by omega) htaken)
  rw [hanswer, hsome]
  exact Option.some_ne_none _

theorem move_of_room (halign : block.align ≤ total) (htotal : total ≤ n)
    {reply : Reply (Outcome TopSpace) Break}
    (hrun : (s.move m block cell total).run level process = .ok reply) :
    reply.answer.base ≠ none := by
  obtain ⟨acquired, hacquired, hanswer⟩ := Dialogue.answer_of_map hrun
  obtain ⟨base, hbase⟩ := Option.ne_none_iff_exists'.mp
    (acquire_of_room h hsession false halign htotal hacquired)
  rw [hanswer, hbase]
  exact Option.some_ne_none _

theorem resize_of_room (halign : block.align ≤ total) (htotal : total ≤ n)
    {dialogue : Dialogue (Outcome TopSpace)} {reply : Reply (Outcome TopSpace) Break}
    (hresize : resize block total s m = .ok dialogue)
    (hrun : dialogue.run level process = .ok reply) : reply.answer.base ≠ none := by
  obtain ⟨cell, -, hresize⟩ := bind_eq_ok.mp hresize
  rw [not_exceeds h halign htotal, if_neg Bool.false_ne_true] at hresize
  split at hresize
  · obtain rfl := Except.ok.inj hresize
    exact move_of_room h hsession halign htotal hrun
  · split at hresize
    · obtain rfl := Except.ok.inj hresize
      obtain rfl := Except.ok.inj hrun
      exact Option.some_ne_none _
    · split at hresize
      · obtain rfl := Except.ok.inj hresize
        obtain rfl := Except.ok.inj hrun
        exact Option.some_ne_none _
      · obtain rfl := Except.ok.inj hresize
        exact move_of_room h hsession halign htotal hrun

/-- Over a break with room the allocator refuses nothing. -/
theorem plenty (level : Trace.Level) (m : Memory) : Plenty n level s process m where
  acquire _ halign htotal hrun := acquire_of_room h hsession _ halign htotal hrun
  resize _ halign htotal hresize hrun := resize_of_room h hsession halign htotal hresize hrun

end room

end RegionHeap.Sized.TopSpace
