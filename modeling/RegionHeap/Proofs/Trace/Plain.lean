import Mathlib.Data.List.Basic
import Mathlib.Data.List.Induction
import RegionHeap.Proofs.Trace.Numeral

/-!
# Plain numerals

Of all numerals with the same value one begins with `0` only where it is nothing else, and this
is the one that is written. So writing and reading undo each other: the digits of a word are read
as that word, and a plain numeral whose value is a word is what is written of it. Neither is a
matter of what the buffer held, and its twenty bytes are enough for every word.
-/
namespace RegionHeap.Decimal

variable {text before : List UInt8} {byte : UInt8} {number : Nat}

/-- A numeral with no more zeros in front than it needs. -/
def Plain (text : List UInt8) : Prop := Numeral text ∧ (text.head? = some zero → text = [zero])

instance : DecidablePred Plain := fun _ => inferInstanceAs (Decidable (_ ∧ _))

theorem lastChar_eq_zero : lastChar number = zero ↔ number % 10 = 0 := by
  rw [← UInt8.toNat_inj, toNat_lastChar]
  change 48 + number % 10 = 48 ↔ _
  omega

theorem lastChar_add (number : Nat) (h : Digit byte) :
    lastChar (number * 10 + (byte.toNat - 48)) = byte := by
  obtain ⟨hlow, hhigh⟩ := h
  rw [← UInt8.toNat_inj, toNat_lastChar]
  omega

theorem head?_digits (h : number ≠ 0) : (digits number).head? ≠ some zero := by
  induction number using Nat.strong_induction_on with
  | _ number ih =>
    rw [digits_eq]
    by_cases hlast : number < 10
    · rw [if_pos hlast, List.nil_append, List.head?_cons, Ne, Option.some.injEq, lastChar_eq_zero]
      omega
    · have hfirst := (numeral_digits (number / 10)).1
      rw [if_neg hlast, List.head?_append_of_ne_nil _ hfirst]
      exact ih (number / 10) (by omega) (by omega)

theorem plain_digits (number : Nat) : Plain (digits number) := by
  refine ⟨numeral_digits number, fun hhead => ?_⟩
  obtain rfl : number = 0 := by_contra fun hne => head?_digits hne hhead
  rfl

/-- What stands before the last of several digits of a plain numeral is plain, and not zero. -/
theorem Plain.init (h : Plain (before ++ [byte])) (hbefore : before ≠ []) :
    Plain before ∧ before.head? ≠ some zero := by
  obtain ⟨⟨-, hdigits⟩, hplain⟩ := h
  have hhead : before.head? ≠ some zero := by
    intro hzero
    have hsingle := hplain ((List.head?_append_of_ne_nil _ hbefore).trans hzero)
    have hlength := congrArg List.length hsingle
    rw [List.length_append, List.length_singleton, List.length_singleton] at hlength
    exact hbefore (List.length_eq_zero_iff.mp (by omega))
  exact ⟨⟨⟨hbefore, fun digit hmem => hdigits digit (List.mem_append_left _ hmem)⟩,
    fun hzero => absurd hzero hhead⟩, hhead⟩

/-- A plain numeral is made of the digits of its value. -/
theorem digits_value (h : Plain text) : digits (value text) = text := by
  induction text using List.reverseRecOn with
  | nil => exact absurd rfl h.1.1
  | append_singleton before byte ih =>
    have hdigit : Digit byte := h.1.2 byte (List.mem_append_right _ (List.mem_singleton_self _))
    rw [value_concat, digits_eq, lastChar_add _ hdigit]
    obtain ⟨hlow, hhigh⟩ := hdigit
    by_cases hbefore : before = []
    · subst hbefore
      rw [show value [] = 0 from rfl, if_pos (by omega)]
    · obtain ⟨hplain, hhead⟩ := h.init hbefore
      have hinit := ih hplain
      -- What is written of zero begins with `0`, so the value of the rest is not zero.
      have hpos : value before ≠ 0 := by
        intro hzero
        rw [hzero] at hinit
        exact hhead (hinit ▸ rfl)
      rw [if_neg (by omega), show (value before * 10 + (byte.toNat - 48)) / 10 = value before by
        omega, hinit]

/-- A word is written in one to twenty digits, whatever the buffer held, with a zero in front
only if it is zero, and is read back from them. A plain numeral whose value is a word is read as
this value and written again of it. -/
theorem inverse_of_word :
    (∀ number < Word.bound, ∃ text, (∀ buffer, render number buffer = .ok text) ∧
      1 ≤ text.length ∧ text.length ≤ 20 ∧ (∀ byte ∈ text, Digit byte) ∧
      (text.head? = some zero → number = 0) ∧ Plain text ∧ read? text = some number) ∧
    ∀ text, Plain text → value text < Word.bound →
      read? text = some (value text) ∧ ∀ buffer, render (value text) buffer = .ok text := by
  constructor
  · intro number hword
    obtain ⟨hsome, hdigits⟩ := numeral_digits number
    exact ⟨digits number, fun buffer => render_eq buffer hword, List.length_pos_iff.mpr hsome,
      length_digits_of_word hword, hdigits, fun hhead => by_contra fun hne =>
        head?_digits hne hhead, plain_digits number, read?_digits hword⟩
  · intro text hplain hword
    have hsame := digits_value hplain
    have hread := read?_digits hword
    rw [hsame] at hread
    exact ⟨hread, fun buffer => (render_eq buffer hword).trans (congrArg Except.ok hsame)⟩

/-- The largest word fills the buffer, and zero leaves one byte of it. -/
theorem inverse_of_word_max :
    Word.max < Word.bound ∧ Plain (Trace.bytesOf "18446744073709551615") ∧
      value (Trace.bytesOf "18446744073709551615") = Word.max ∧
      (Trace.bytesOf "18446744073709551615").length = 20 ∧
      render Word.max (Vector.replicate width 255) =
        .ok (Trace.bytesOf "18446744073709551615") ∧
      ∃ text, render 0 (Vector.replicate width 255) = .ok text ∧ read? text = some 0 := by
  obtain ⟨hwrites, hreads⟩ := inverse_of_word
  have hplain : Plain (Trace.bytesOf "18446744073709551615") := by decide +kernel
  have hvalue : value (Trace.bytesOf "18446744073709551615") = Word.max := by
    decide +kernel
  obtain ⟨-, hrender⟩ := hreads _ hplain (by decide)
  obtain ⟨text, hzero, -, -, -, -, -, hread⟩ := hwrites 0 (by decide)
  exact ⟨by decide, hplain, hvalue, by decide, hvalue ▸ hrender _, text, hzero _, hread⟩

end RegionHeap.Decimal
