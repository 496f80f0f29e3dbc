import Mathlib.Data.Nat.Digits.Defs
import RegionHeap.Proofs.Trace

/-!
# Numerals of any length

A numeral is one digit or more and nothing else, and it has a value, however large that is.
Reading goes from the left and never holds more than the largest word. Where the value of the
digits so far has been cut to that word, reading on comes to the value of all digits cut to it:
a number that has passed the largest word stays there. So what is read is the value of a numeral
as far as a word can hold it, nothing is read of any other text, and the level that a setting
asks for is told by the grammar alone.
-/
namespace RegionHeap

namespace Decimal

variable {text before after : List UInt8} {byte : UInt8}

/-- The byte is one of the characters from `0` to `9`. -/
def Digit (byte : UInt8) : Prop := 48 ≤ byte.toNat ∧ byte.toNat ≤ 57

instance : DecidablePred Digit := fun _ => inferInstanceAs (Decidable (_ ∧ _))

def Numeral (text : List UInt8) : Prop := text ≠ [] ∧ ∀ byte ∈ text, Digit byte

instance : DecidablePred Numeral := fun _ => inferInstanceAs (Decidable (_ ∧ _))

/-- The number that digits write, as a number that need not be a word. -/
def value (text : List UInt8) : Nat :=
  Nat.ofDigits 10 (text.reverse.map fun byte => byte.toNat - 48)

theorem isDigit_iff : isDigit byte ↔ Digit byte := by
  simp only [isDigit, zero, Digit, Bool.and_eq_true, decide_eq_true_eq, UInt8.le_iff_toNat_le]
  rfl

theorem value_concat (before : List UInt8) (byte : UInt8) :
    value (before ++ [byte]) = value before * 10 + (byte.toNat - 48) := by
  rw [value, List.reverse_concat, List.map_cons, Nat.ofDigits_cons, value]
  omega

theorem toNat_sub_zero (h : Digit byte) : (byte - zero).toNat = byte.toNat - 48 :=
  UInt8.toNat_sub_of_le byte zero (UInt8.le_iff_toNat_le.mpr h.1)

/-- One more digit is read of a number that may have been cut already. -/
theorem addSat_mulSat_min (read digit : Nat) :
    Word.addSat (Word.mulSat (min read Word.max) 10) digit = min (read * 10 + digit) Word.max := by
  simp only [Word.addSat, Word.mulSat]
  omega

/-- It does not matter where between the digits the number was cut to a word. -/
theorem readFrom_eq (before : List UInt8) (h : ∀ byte ∈ after, Digit byte) :
    readFrom (min (value before) Word.max) after =
      some (min (value (before ++ after)) Word.max) := by
  induction after generalizing before with
  | nil => rw [readFrom, List.append_nil]
  | cons byte rest ih =>
    obtain ⟨hdigit, hrest⟩ := List.forall_mem_cons.mp h
    rw [readFrom, if_pos (isDigit_iff.mpr hdigit), toNat_sub_zero hdigit, addSat_mulSat_min,
      ← value_concat, ih _ hrest, List.append_assoc, List.singleton_append]

/-- A byte that is no digit is noticed wherever it stands. -/
theorem readFrom_eq_none (read : Nat) (before after : List UInt8) (h : ¬Digit byte) :
    readFrom read (before ++ byte :: after) = none := by
  induction before generalizing read with
  | nil => exact if_neg (mt isDigit_iff.mp h)
  | cons first rest ih =>
    rw [List.cons_append, readFrom]
    split
    · exact ih _
    · rfl

theorem read?_of_not_digit (before after : List UInt8) (h : ¬Digit byte) :
    read? (before ++ byte :: after) = none := by
  rw [read?, readFrom_eq_none 0 before after h, ite_self]

theorem read?_eq (text : List UInt8) :
    read? text = if Numeral text then some (min (value text) Word.max) else none := by
  by_cases hempty : text = []
  · rw [if_neg fun numeral => numeral.1 hempty, hempty]
    rfl
  by_cases hdigits : ∀ byte ∈ text, Digit byte
  · have hread : readFrom 0 text = _ := readFrom_eq [] hdigits
    rw [if_pos ⟨hempty, hdigits⟩, read?, if_neg (mt List.isEmpty_iff.mp hempty), hread,
      List.nil_append]
  · obtain ⟨byte, hmem, hdigit⟩ : ∃ byte ∈ text, ¬Digit byte := by
      simpa only [not_forall, exists_prop] using hdigits
    obtain ⟨before, after, rfl⟩ := List.append_of_mem hmem
    rw [if_neg fun numeral => hdigits numeral.2, read?_of_not_digit before after hdigit]

section digits

theorem toNat_lastChar (number : Nat) : (lastChar number).toNat = 48 + number % 10 := by
  have hchar : ∀ digit < 10, (zero + digit.toUInt8).toNat = 48 + digit := by decide
  exact hchar _ (Nat.mod_lt number (by decide))

theorem digit_lastChar (number : Nat) : Digit (lastChar number) := by
  have hdigit := Nat.mod_lt number (show 10 > 0 by decide)
  rw [Digit, toNat_lastChar]
  omega

theorem numeral_digits (number : Nat) : Numeral (digits number) := by
  induction number using Nat.strong_induction_on with
  | _ number ih =>
    rw [digits_eq]
    refine ⟨List.concat_ne_nil _ _, List.forall_mem_append.mpr ⟨?_, ?_⟩⟩
    · split
      · exact List.forall_mem_nil _
      · exact (ih (number / 10) (by omega)).2
    · exact List.forall_mem_singleton.mpr (digit_lastChar number)

theorem value_digits (number : Nat) : value (digits number) = number := by
  induction number using Nat.strong_induction_on with
  | _ number ih =>
    have hhigher : value (if number < 10 then [] else digits (number / 10)) = number / 10 := by
      split
      · rename_i hlt
        exact (Nat.div_eq_of_lt hlt).symm
      · exact ih (number / 10) (by omega)
    rw [digits_eq, value_concat, toNat_lastChar, hhigher]
    omega

theorem read?_digits {number : Nat} (h : number < Word.bound) :
    read? (digits number) = some number := by
  have hmax : number ≤ Word.max := Nat.le_sub_one_of_lt h
  rw [read?_eq, if_pos (numeral_digits number), value_digits, Nat.min_eq_left hmax]

end digits

end Decimal

namespace Trace.Level

open Decimal (Digit Numeral read? value)

theorem rank_ofSetting_some (text : List UInt8) :
    (ofSetting (some text)).rank =
      if Numeral text then min (value text) 2 else 1 := by
  rw [ofSetting, Decimal.read?_eq]
  by_cases h : Numeral text
  · have hmax : 2 ≤ Word.max := by decide
    rw [if_pos h, if_pos h]
    generalize value text = number
    rcases number with _ | _ | number
    · rw [Nat.zero_min]
      rfl
    · rw [Nat.min_eq_left (by omega)]
      rfl
    · obtain ⟨least, hleast⟩ : ∃ least, min (number + 2) Word.max = least + 2 :=
        Nat.exists_eq_add_of_le' (by omega)
      rw [hleast, Nat.min_eq_right (by omega)]
      rfl
  · rw [if_neg h, if_neg h]
    rfl

/-- A text of any bytes and any length is read by the grammar: of a numeral its value as far as
a word can hold it, and nothing of any other text. So a missing setting is silent, a numeral
asks for the level of its value, of which only two counts, and every other text for the
rejections. Neither does it matter where between the digits the value passes the largest word,
nor how many digits stand before a byte that is none. -/
theorem rank_of_grammar :
    (∀ text, read? text = if Numeral text then some (min (value text) Word.max) else none) ∧
    (ofSetting none).rank = 0 ∧
    (∀ text, (ofSetting (some text)).rank = if Numeral text then min (value text) 2 else 1) ∧
    (∀ before after, (∀ byte ∈ after, Digit byte) →
      Decimal.readFrom (min (value before) Word.max) after =
        some (min (value (before ++ after)) Word.max)) ∧
    ∀ before byte after, ¬Digit byte → read? (before ++ byte :: after) = none ∧
      (ofSetting (some (before ++ byte :: after))).rank = 1 := by
  refine ⟨Decimal.read?_eq, rfl, rank_ofSetting_some, fun before _ => Decimal.readFrom_eq before,
    fun before byte after h => ⟨Decimal.read?_of_not_digit before after h, ?_⟩⟩
  have hnumeral : ¬Numeral (before ++ byte :: after) := fun numeral =>
    h (numeral.2 byte (List.mem_append_right _ List.mem_cons_self))
  rw [rank_ofSetting_some, if_neg hnumeral]

/-- Thirty nines, also with zeros in front of them, and with a blank behind them. -/
theorem rank_of_grammar_nines :
    read? (bytesOf "000999999999999999999999999999999") = some Word.max ∧
      (ofSetting (some (bytesOf "000999999999999999999999999999999"))).rank = 2 ∧
      (∀ byte ∈ bytesOf "0", Digit byte) ∧
      Decimal.readFrom (min (value (bytesOf "999999999999999999999999999999")) Word.max)
        (bytesOf "0") = some Word.max ∧
      ¬Digit 32 ∧
      (ofSetting (some (bytesOf "999999999999999999999999999999" ++ 32 :: bytesOf "9"))).rank =
        1 := by
  obtain ⟨hread, -, hrank, hcut, hother⟩ := rank_of_grammar
  have hdigits : ∀ byte ∈ bytesOf "0", Digit byte := by decide +kernel
  have hblank : ¬Digit 32 := by decide
  refine ⟨(hread _).trans (by decide +kernel), (hrank _).trans (by decide +kernel), hdigits,
    (hcut _ _ hdigits).trans (by decide +kernel), hblank, (hother _ _ _ hblank).2⟩

end Trace.Level

end RegionHeap
