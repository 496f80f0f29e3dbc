import RegionHeap.Proofs.Trace.Numeral

/-!
# Reading a trace

A note is what a trace line says: that so many bytes were refused or granted. No line has a
newline but at its end, the two kinds of lines begin differently, and the digits of a word are
read as that word. So a text that consists of whole lines is cut into them in one way only, and
each of them gives its note back.
-/
namespace RegionHeap.Trace

open Decimal (Digit digits numeral_digits read? read?_digits)

inductive Note where
  | rejection (bytes : Nat)
  | grant (bytes : Nat)
deriving Repr, DecidableEq

namespace Note

def bytes : Note → Nat
  | rejection bytes => bytes
  | grant bytes => bytes

def line : Note → List UInt8
  | rejection bytes => rejectionLine bytes
  | grant bytes => grantLine bytes

end Note

/-- The character that ends a line. -/
def newline : UInt8 := 10

/-- A text cut behind each of its newlines. -/
def lines : List UInt8 → List (List UInt8)
  | [] => []
  | byte :: rest =>
    if byte = newline then
      [byte] :: lines rest
    else
      match lines rest with
      | [] => [[byte]]
      | line :: others => (byte :: line) :: others

/-- What stands between two texts that a line begins and ends with. -/
def between? (before after line : List UInt8) : Option (List UInt8) :=
  if before <+: line ∧ after <:+ line then
    some ((line.drop before.length).take (line.length - before.length - after.length))
  else none

/-- The note of a line of either kind. -/
def Note.ofLine? (line : List UInt8) : Option Note :=
  match between? (bytesOf "heapfacade: growth of ") (bytesOf " bytes rejected\n") line with
  | some text => (read? text).map rejection
  | none =>
    (between? (bytesOf "heapfacade: grew region by ") (bytesOf " bytes\n") line).bind fun text =>
      (read? text).map grant

/-- The notes of a text, if it consists of lines that have one. -/
def notes? (text : List UInt8) : Option (List Note) := (lines text).mapM Note.ofLine?

variable {line : List UInt8} {note : Note} {notes : List Note}

/-- The line ends with the only newline that it has. -/
def Closed (line : List UInt8) : Prop := ∃ body, line = body ++ [newline] ∧ newline ∉ body

theorem lines_append (h : Closed line) (rest : List UInt8) :
    lines (line ++ rest) = line :: lines rest := by
  obtain ⟨body, rfl, hbody⟩ := h
  induction body with
  | nil => exact if_pos rfl
  | cons byte body ih =>
    rw [List.mem_cons, not_or] at hbody
    rw [List.cons_append, List.cons_append, lines, if_neg (Ne.symm hbody.1), ih hbody.2]

theorem between?_append (before text after : List UInt8) :
    between? before after (before ++ text ++ after) = some text := by
  have hstarts : before <+: before ++ text ++ after := by
    rw [List.append_assoc]
    exact List.prefix_append ..
  rw [between?, if_pos ⟨hstarts, List.suffix_append ..⟩, List.append_assoc, List.drop_left]
  have hlength : (before ++ (text ++ after)).length - before.length - after.length =
      text.length := by
    simp only [List.length_append]
    omega
  rw [hlength, List.take_left]

theorem newline_notMem_digits (bytes : Nat) : newline ∉ digits bytes := fun hmem =>
  absurd ((numeral_digits bytes).2 newline hmem) (by decide)

theorem Note.closed (note : Note) : Closed note.line := by
  have hclosed : ∀ {before after} (bytes : Nat), newline ∉ before → Closed after →
      Closed (before ++ digits bytes ++ after) := by
    intro before after bytes hbefore hafter
    obtain ⟨body, rfl, hbody⟩ := hafter
    refine ⟨before ++ digits bytes ++ body, (List.append_assoc ..).symm, ?_⟩
    simp only [List.mem_append, not_or]
    exact ⟨⟨hbefore, newline_notMem_digits bytes⟩, hbody⟩
  cases note with
  | rejection bytes => exact hclosed bytes (by decide) ⟨bytesOf " bytes rejected", by decide⟩
  | grant bytes => exact hclosed bytes (by decide) ⟨bytesOf " bytes", by decide⟩

theorem Note.ofLine?_line (h : note.bytes < Word.bound) : ofLine? note.line = some note := by
  cases note with
  | rejection bytes =>
    have hbetween : between? _ _ (rejectionLine bytes) = some (digits bytes) :=
      between?_append ..
    have hread : read? (digits bytes) = some bytes := read?_digits h
    rw [line, ofLine?, hbetween]
    dsimp only
    rw [hread, Option.map_some]
  | grant bytes =>
    have hbetween : between? _ _ (grantLine bytes) = some (digits bytes) := between?_append ..
    have hread : read? (digits bytes) = some bytes := read?_digits h
    -- The beginnings differ within what both kinds of lines have in front of the number.
    have hother : between? (bytesOf "heapfacade: growth of ") (bytesOf " bytes rejected\n")
        (grantLine bytes) = none := by
      refine if_neg fun hparts => ?_
      have hshort : bytesOf "heapfacade: growth of " <+: bytesOf "heapfacade: grew region by " :=
        List.prefix_of_prefix_length_le hparts.1
          (by rw [grantLine, List.append_assoc]; exact List.prefix_append ..) (by decide)
      exact absurd hshort (by decide)
    rw [line, ofLine?, hother]
    dsimp only
    rw [hbetween, Option.bind_some, hread, Option.map_some]

/-- Of a text of whole lines about words, every note is recovered. -/
theorem notes?_flatMap (h : ∀ note ∈ notes, note.bytes < Word.bound) :
    notes? (notes.flatMap Note.line) = some notes := by
  induction notes with
  | nil => rfl
  | cons note rest ih =>
    obtain ⟨hfirst, hrest⟩ := List.forall_mem_cons.mp h
    rw [notes?, List.flatMap_cons, lines_append note.closed, List.mapM_cons,
      Note.ofLine?_line hfirst]
    change (notes? (rest.flatMap Note.line)).bind _ = _
    rw [ih hrest]
    rfl

/-- A line about a word fits the buffer that it is packed in. -/
theorem Note.length_line_le (h : note.bytes < Word.bound) :
    note.line.length ≤ Line.capacity := by
  cases note with
  | rejection bytes => exact length_parts_le h (by decide)
  | grant bytes => exact length_parts_le h (by decide)

end RegionHeap.Trace
