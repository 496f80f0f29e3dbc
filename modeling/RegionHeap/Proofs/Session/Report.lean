import RegionHeap.Proofs.Trace
import RegionHeap.Session.Command

/-!
# What a report writes

A report writes once, and it writes as much of its three parts as a line can hold, however long
the texts around the number are: they may fill the line by themselves, or reach past its end
before the number has begun. No slice and no copy is ever out of its bounds. The one thing that
could go wrong is the sum that says where a part ends, and it takes a text that is longer than
any memory for that.
-/
namespace RegionHeap.Session

open Decimal (digits)
open Trace (Line)

/-- A line about a word is the beginning of its three parts, or else a sum of lengths is no word,
which is the only fault that there is. Texts that a memory can hold make no such sum, so their
report is answered with the one line that it writes. -/
theorem report_of_parts {value : Nat} (h : value < Word.bound) (before after : List UInt8) :
    (Line.pack before value after =
      if before.length < Word.bound ∧
          min Line.capacity (before ++ digits value).length + after.length < Word.bound then
        .ok ((before ++ digits value ++ after).take Line.capacity)
      else .error .overflow) ∧
    (before.length ≤ Word.signedMax → after.length ≤ Word.signedMax → ∀ session : Session,
      session.report (some <$> Line.pack before value after) =
        .ok ⟨true, session, [.traced ((before ++ digits value ++ after).take Line.capacity)]⟩) := by
  have hpack := Line.pack_eq h before after
  refine ⟨hpack, fun hbefore hafter session => ?_⟩
  have hsigned : Line.capacity + Word.signedMax < Word.bound := by decide
  rw [hpack, if_pos ⟨by omega, by omega⟩]
  rfl

/-- The number reaches past the end of the line, and what follows it begins where the line is
full already. -/
theorem report_of_parts_full :
    Word.max < Word.bound ∧ (List.replicate 95 (46 : UInt8)).length ≤ Word.signedMax ∧
      (Trace.bytesOf " bytes\n").length ≤ Word.signedMax ∧
      report ⟨none, 4096, .off, 4096, .ready⟩
          (some <$> Line.pack (List.replicate 95 46) Word.max (Trace.bytesOf " bytes\n")) =
        .ok ⟨true, ⟨none, 4096, .off, 4096, .ready⟩, [.traced (List.replicate 95 46 ++ [49])]⟩ := by
  have hword : Word.max < Word.bound := by decide
  have hbefore : (List.replicate 95 (46 : UInt8)).length ≤ Word.signedMax := by decide
  have hafter : (Trace.bytesOf " bytes\n").length ≤ Word.signedMax := by decide
  obtain ⟨-, hreport⟩ := report_of_parts hword (List.replicate 95 46) (Trace.bytesOf " bytes\n")
  exact ⟨hword, hbefore, hafter, (hreport hbefore hafter _).trans (by rfl)⟩

end RegionHeap.Session
