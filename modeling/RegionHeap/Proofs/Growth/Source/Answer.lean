import RegionHeap.Proofs.Growth.Tale

/-!
# How a source answers

Whatever the level, a source either asks its provider for one multiple of the provider's unit,
and answers and reports as the provider has answered, or refuses by itself because no signed
word is large enough, and reports the size that was wanted. Nothing is assumed of the provider
but that its unit is a power of two.
-/
namespace RegionHeap.Growth

open Checked

/-- The report of a question for `bytes` bytes. -/
def Report.ofAnswer (bytes : Nat) : Option Nat → Report
  | some _ => granted bytes
  | none => rejected bytes

namespace Source

variable {ρ : Type} [Provider ρ] {provider : ρ} {size bytes : Nat}

/-- What a provider is asked for when `size` bytes are wanted, if it is asked at all. -/
def multiple (size : Nat) (provider : ρ) : Nat := Word.ceiling size (Provider.pageSize provider)

/-- A question, its answer and the report about it, at any level. -/
theorem ask_eq_map (level : Trace.Level) (h : bytes ≤ Word.signedMax) (provider : ρ) :
    ask level bytes provider = (Provider.grow (bytes : Int) provider).map fun grown =>
      ⟨grown.answer.map (⟨·, bytes⟩), grown.state, .growthAsked bytes grown.answer ::
        grown.events ++ (Report.ofAnswer bytes grown.answer).told level⟩ := by
  have hword : bytes < Word.bound := Nat.lt_of_le_of_lt h (by decide)
  rw [ask, Word.signed_of_le h]
  cases Provider.grow (bytes : Int) provider with
  | error fault => rfl
  | ok grown =>
    rw [ok_bind, Except.map]
    cases hanswer : grown.answer with
    | none =>
      rw [Trace.rejection_eq level hword]
      rfl
    | some base =>
      rw [Trace.grant_eq level hword]
      rfl

theorem obtain_eq_ask (level : Trace.Level)
    (hpower : Word.isPowerOfTwo (Provider.pageSize provider))
    (hword : Provider.pageSize provider < Word.bound) (hsize : size < Word.bound) :
    obtain level size provider =
      if multiple size provider ≤ Word.signedMax then
        ask level (multiple size provider) provider
      else .ok ⟨none, provider, (Report.rejected size).told level⟩ := by
  have hsigned : Word.signedMax < Word.bound := by decide
  rw [obtain, Word.roundUp_eq size hpower (Nat.le_of_lt hword), ok_bind]
  change (match (if multiple size provider < Word.bound then some (multiple size provider)
    else none).filter _ with | some bytes => _ | none => _) = _
  by_cases hfits : multiple size provider ≤ Word.signedMax
  · have hsome : (some (multiple size provider)).filter (· ≤ Word.signedMax) =
        some (multiple size provider) := Option.filter_some_pos (by simpa using hfits)
    rw [if_pos (Nat.lt_of_le_of_lt hfits hsigned), if_pos hfits, hsome]
  · have hnone : (if multiple size provider < Word.bound then some (multiple size provider)
        else none).filter (· ≤ Word.signedMax) = none := by
      split
      · exact Option.filter_some_neg (by simpa using hfits)
      · rfl
    rw [hnone, if_neg hfits]
    dsimp only
    rw [Trace.rejection_eq level hsize]
    rfl

end Source

end RegionHeap.Growth
