/-!
# Spans of addresses

A span holds the addresses from its start up to and not including its stop.
Spans are joined when they meet and cut from the lower end; an end that is too
short to be of use is not cut off.
-/
namespace RegionHeap.Sized

/-- The addresses from `start` up to and not including `stop`. -/
structure Span where
  start : Nat
  stop : Nat
deriving Repr, DecidableEq

namespace Span

/-- The least length of a span that is kept for itself. -/
def least : Nat := 32

def length (span : Span) : Nat := span.stop - span.start

def Has (span : Span) (address : Nat) : Prop := span.start ≤ address ∧ address < span.stop

/-- The span does not end before it starts. -/
def Forward (span : Span) : Prop := span.start ≤ span.stop

/-- No address lies between the two spans. -/
def Meets (a b : Span) : Prop := a.start ≤ b.stop ∧ b.start ≤ a.stop

/-- Whether one of the spans starts where the other one ends. -/
def touches (a b : Span) : Bool := a.stop == b.start || b.stop == a.start

def join (a b : Span) : Span := ⟨min a.start b.start, max a.stop b.stop⟩

/-- The lower `length` addresses and the others, if those are enough to be kept
for themselves; otherwise the whole span. -/
def cut (span : Span) (length : Nat) : Span × Option Span :=
  if span.length < length + least then (span, none)
  else (⟨span.start, span.start + length⟩, some ⟨span.start + length, span.stop⟩)

variable {a b : Span} {address : Nat}

theorem meets_of_touches (h : a.touches b) (ha : a.Forward) (hb : b.Forward) : a.Meets b := by
  simp only [touches, Bool.or_eq_true, beq_iff_eq] at h
  simp only [Meets, Forward] at *
  omega

theorem forward_join (ha : a.Forward) : (a.join b).Forward := by
  simp only [join, Forward] at *
  omega

theorem meets_join {c : Span} (h : a.Meets c) : (a.join b).Meets c := by
  simp only [join, Meets] at *
  omega

theorem has_join (h : a.Meets b) : (a.join b).Has address ↔ a.Has address ∨ b.Has address := by
  simp only [join, Meets, Has] at *
  omega

end Span

end RegionHeap.Sized
