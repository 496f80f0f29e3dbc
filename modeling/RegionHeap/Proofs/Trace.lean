import RegionHeap.Proofs.Checked
import RegionHeap.Trace.Level

/-!
# What a trace line says

The digits of a word fit the buffer that they are written into, and a part that
is added to a line is cut to the room that is left. Hence every line is written,
whatever stands around the number, and it is the beginning of its parts, one
after the other, unless a length cannot be counted by a word. The two lines
about growth are so short that no word can make them longer than a line, so
these are never cut.
-/
namespace RegionHeap

open Checked

namespace Decimal

/-- The decimal digits of a number, the first one first. -/
def digits (value : Nat) : List UInt8 := Trace.bytesOf value.repr

/-- The character of the last digit of a number. -/
def lastChar (value : Nat) : UInt8 := zero + (value % 10).toUInt8

/-- The characters of the digits are few enough to be reached from `0` within a byte. -/
theorem lastDigit_eq (value : Nat) : lastDigit value = .ok (lastChar value) := by
  have hfits : ∀ d < 10, zero.toNat + d.toUInt8.toNat < 256 := by decide
  exact if_pos (hfits _ (Nat.mod_lt value (by decide)))

theorem digits_eq (value : Nat) :
    digits value = (if value < 10 then [] else digits (value / 10)) ++ [lastChar value] := by
  have hdigit : ∀ d < 10, (Nat.digitChar d).toUInt8 = zero + UInt8.ofNat d := by decide
  simp only [digits, Trace.bytesOf, Nat.toList_repr]
  rw [Nat.toDigits_eq_if (by decide)]
  split
  · rename_i hlt
    simp [lastChar, hdigit value hlt, Nat.mod_eq_of_lt hlt]
  · simp [lastChar, hdigit (value % 10) (Nat.mod_lt value (by decide))]

theorem length_digits_le {value count : Nat} (hpos : 0 < count) (h : value < Nat.pow 10 count) :
    (digits value).length ≤ count := by
  rw [digits, Trace.bytesOf, List.length_map]
  exact (Nat.length_repr_le_iff hpos).mpr h

theorem length_digits_of_word {value : Nat} (h : value < Word.bound) :
    (digits value).length ≤ width :=
  length_digits_le (by decide) (Nat.lt_trans h (show Word.bound < Nat.pow 10 width by decide))

/-- The digits stand in front of what was behind the position that they were written below. -/
theorem write_eq {pos value : Nat} (buffer : Vector UInt8 width) (hpos : 0 < pos)
    (hwidth : pos ≤ width) (h : value < Nat.pow 10 pos) :
    ∃ first written, write pos value buffer = .ok (first, written) ∧
      written.toList.drop first = digits value ++ buffer.toList.drop pos := by
  induction pos generalizing value buffer with
  | zero => exact absurd hpos (by decide)
  | succ pos ih =>
    have hlast : pos < width := hwidth
    have hset : (buffer.set pos (lastChar value) hlast).toList.drop pos =
        lastChar value :: buffer.toList.drop (pos + 1) := by
      rw [Vector.toList_set, List.drop_eq_getElem_cons (by simpa using hlast),
        List.getElem_set_self, List.drop_set_of_lt (Nat.lt_succ_self pos)]
    rw [write, dif_pos hlast, lastDigit_eq, ok_bind]
    dsimp only
    by_cases hrest : value / 10 = 0
    · refine ⟨pos, _, if_pos hrest, ?_⟩
      rw [hset, digits_eq, if_pos (by omega)]
      rfl
    · have hlt : value / 10 < Nat.pow 10 pos := by
        rw [Nat.div_lt_iff_lt_mul (by decide)]
        exact h
      have hne : pos ≠ 0 := by
        intro heq
        subst heq
        change value / 10 < 1 at hlt
        omega
      obtain ⟨first, written, hwrite, hdrop⟩ :=
        ih (buffer.set pos (lastChar value)) (by omega) (by omega) hlt
      refine ⟨first, written, (if_neg hrest).trans hwrite, ?_⟩
      rw [hdrop, hset, digits_eq value, if_neg (by omega), List.append_assoc]
      rfl

theorem render_eq {value : Nat} (buffer : Vector UInt8 width) (h : value < Word.bound) :
    render value buffer = .ok (digits value) := by
  have hlt : value < Nat.pow 10 width := Nat.lt_trans h (by decide)
  obtain ⟨first, written, hwrite, hdrop⟩ := write_eq buffer (by decide) (Nat.le_refl _) hlt
  have hend : buffer.toList.drop width = [] := List.drop_eq_nil_of_le (by simp)
  rw [hend, List.append_nil] at hdrop
  rw [render, hwrite, ok_bind, ← hdrop]
  rfl

end Decimal

namespace Trace

namespace Line

/-- The line is within its buffer and says `text`. -/
def Says (line : Line) (text : List UInt8) : Prop :=
  line.used ≤ capacity ∧ line.buffer.toList.take line.used = text

theorem take_overwrite (buffer : Vector UInt8 96) {start : Nat} {source : List UInt8}
    (h : start + source.length ≤ 96) :
    (overwrite buffer start source).toList.take (start + source.length) =
      buffer.toList.take start ++ source := by
  apply List.ext_getElem
  · simp
    omega
  · intro i hi _
    have hi : i < start + source.length := by
      rw [List.length_take] at hi
      omega
    by_cases hbefore : i < start
    · rw [List.getElem_append_left (by simp; omega)]
      simp [overwrite, Nat.not_le.mpr hbefore]
    · rw [List.getElem_append_right (by simp; omega)]
      have hindex : i - start < source.length := by omega
      have hsource : source[i - start]? = some source[i - start] :=
        List.getElem?_eq_getElem hindex
      have hstart : min start 96 = start := by omega
      simp [overwrite, Nat.le_of_not_lt hbefore, hsource, hstart]

theorem Says.length {line : Line} {text : List UInt8} (h : line.Says text) :
    text.length = line.used := by
  rw [← h.2, List.length_take, Vector.length_toList]
  exact Nat.min_eq_left h.1

theorem says_blank : blank.Says [] := ⟨Nat.zero_le _, rfl⟩

/-- A line that says as much as it can hold of a text says, with one more part, as much as it
can hold of both. -/
theorem append_eq {line : Line} {said part : List UInt8}
    (hend : line.used + part.length < Word.bound) (h : line.Says (said.take capacity)) :
    ∃ longer, line.append part = .ok longer ∧ longer.Says ((said ++ part).take capacity) := by
  have hlength := h.length
  obtain ⟨hused, htext⟩ := h
  rw [List.length_take] at hlength
  generalize hstop : min (line.used + part.length) capacity = stop
  have hsource : (part.take (stop - line.used)).length = stop - line.used := by
    rw [List.length_take]
    omega
  have hadd : Word.add line.used part.length = .ok (line.used + part.length) := if_pos hend
  have hsub : Word.sub stop line.used = .ok (stop - line.used) := if_pos (by omega)
  refine ⟨⟨overwrite line.buffer line.used (part.take (stop - line.used)), stop⟩, ?_, ?_, ?_⟩
  · rw [append, hadd, ok_bind, hstop]
    dsimp only
    rw [require_of .outOfBounds (by omega), ok_bind, hsub, ok_bind,
      require_of .outOfBounds (by omega), ok_bind, require_of .assertion hsource, ok_bind,
      pure_eq_ok]
  · rw [← hstop]
    exact Nat.min_le_right _ _
  · have hover := take_overwrite line.buffer (show line.used + (part.take _).length ≤ 96 by
      rw [hsource]
      simp only [capacity] at *
      omega)
    have hpart : part.take (capacity - said.length) = part.take (stop - line.used) := by
      rw [List.take_eq_take_iff]
      omega
    rw [List.take_append, hpart, ← htext, ← hover, hsource, Nat.add_sub_cancel' (by omega)]

theorem append_of_overflow {line : Line} {part : List UInt8}
    (hend : ¬line.used + part.length < Word.bound) : line.append part = .error .overflow := by
  rw [append, Word.add, if_neg hend]
  rfl

/-- A line says its three parts as far as there is room. Of its obligations only one can break
at all, the sum that is to be the end of a part, and only if that sum is no word. -/
theorem pack_eq {value : Nat} (h : value < Word.bound) (before after : List UInt8) :
    pack before value after =
      if before.length < Word.bound ∧
          min capacity (before ++ Decimal.digits value).length + after.length < Word.bound then
        .ok ((before ++ Decimal.digits value ++ after).take capacity)
      else .error .overflow := by
  have hdigits : (Decimal.digits value).length ≤ 20 := Decimal.length_digits_of_word h
  have hroom : capacity + 20 < Word.bound := by decide
  rw [pack, Decimal.render_eq _ h, ok_bind, List.foldlM_cons]
  by_cases hbefore : before.length < Word.bound
  · obtain ⟨first, hfirst, hsays⟩ := append_eq
      (show blank.used + before.length < Word.bound by rwa [blank, Nat.zero_add])
      (show blank.Says ([].take capacity) from says_blank)
    rw [List.nil_append] at hsays
    obtain ⟨second, hsecond, hsays⟩ := append_eq
      (show first.used + (Decimal.digits value).length < Word.bound by
        have hused := hsays.1
        omega) hsays
    have hused := hsays.length
    rw [List.length_take] at hused
    rw [hfirst, ok_bind, List.foldlM_cons, hsecond, ok_bind, List.foldlM_cons, hused]
    by_cases hafter : second.used + after.length < Word.bound
    · obtain ⟨third, hthird, hfits, htext⟩ := append_eq hafter hsays
      rw [if_pos ⟨hbefore, hafter⟩, hthird, ok_bind, List.foldlM_nil, pure_eq_ok,
        ok_bind, text, require_of .outOfBounds hfits, ok_bind, pure_eq_ok, htext]
    · rw [if_neg fun hsums => hafter hsums.2, append_of_overflow hafter]
      rfl
  · rw [if_neg fun hsums => hbefore hsums.1, append_of_overflow (by rwa [blank, Nat.zero_add])]
    rfl

end Line

/-- The whole line about a growth of `bytes` that was refused. -/
def rejectionLine (bytes : Nat) : List UInt8 :=
  bytesOf "heapfacade: growth of " ++ Decimal.digits bytes ++ bytesOf " bytes rejected\n"

/-- The whole line about a growth of `bytes` that was granted. -/
def grantLine (bytes : Nat) : List UInt8 :=
  bytesOf "heapfacade: grew region by " ++ Decimal.digits bytes ++ bytesOf " bytes\n"

/-- Two texts of seventy-six bytes leave room for any word. -/
theorem length_parts_le {before after : List UInt8} {value : Nat} (h : value < Word.bound)
    (hroom : before.length + after.length ≤ 76) :
    (before ++ Decimal.digits value ++ after).length ≤ Line.capacity := by
  have hdigits : (Decimal.digits value).length ≤ 20 := Decimal.length_digits_of_word h
  simp only [List.length_append, Line.capacity]
  omega

theorem pack_whole {before after : List UInt8} {value : Nat} (h : value < Word.bound)
    (hroom : before.length + after.length ≤ 76) :
    Line.pack before value after = .ok (before ++ Decimal.digits value ++ after) := by
  have hbound : Line.capacity + 76 < Word.bound := by decide
  rw [Line.pack_eq h, if_pos ⟨by omega, by omega⟩,
    List.take_of_length_le (length_parts_le h hroom)]

theorem rejection_eq {bytes : Nat} (level : Level) (h : bytes < Word.bound) :
    rejection level bytes =
      .ok (if level.rank < Level.rejections.rank then none else some (rejectionLine bytes)) := by
  have hpack := pack_whole h (show (bytesOf "heapfacade: growth of ").length +
    (bytesOf " bytes rejected\n").length ≤ 76 by decide)
  unfold rejection
  split
  · rfl
  · rw [hpack]
    rfl

theorem grant_eq {bytes : Nat} (level : Level) (h : bytes < Word.bound) :
    grant level bytes =
      .ok (if level.rank < Level.all.rank then none else some (grantLine bytes)) := by
  have hpack := pack_whole h (show (bytesOf "heapfacade: grew region by ").length +
    (bytesOf " bytes\n").length ≤ 76 by decide)
  unfold grant
  split
  · rfl
  · rw [hpack]
    rfl

end Trace

end RegionHeap
