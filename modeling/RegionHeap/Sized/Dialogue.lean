import RegionHeap.Growth.Source

/-!
# Dialogues with a source

An allocator that runs out of space asks its source for memory and goes on
with whatever answer it gets, a grant or a refusal. A dialogue is such a
computation with the source left open: it either is done or asks for a number
of bytes and says how each answer continues it. What holds after every answer
holds whatever the environment does.
-/
namespace RegionHeap.Sized

open Growth (Grant Provider Source.obtain)

inductive Dialogue (α : Type) where
  | done (result : α)
  | ask (bytes : Nat) (next : Option Grant → Dialogue α)

namespace Dialogue
variable {α β : Type}

def map (f : α → β) : Dialogue α → Dialogue β
  | done result => done (f result)
  | ask bytes next => ask bytes fun grant => (next grant).map f

/-- Every result of the dialogue satisfies `p`, whatever the answers. -/
def All (p : α → Prop) : Dialogue α → Prop
  | done result => p result
  | ask _ next => ∀ grant, (next grant).All p

/-- Hold the dialogue with the source over a provider. -/
def run {ρ : Type} [Provider ρ] (level : Trace.Level) :
    Dialogue α → ρ → Checked (Reply α ρ)
  | done result, provider => return ⟨result, provider, []⟩
  | ask bytes next, provider => do
    let reply ← Source.obtain level bytes provider
    let rest ← (next reply.answer).run level reply.state
    return { rest with events := reply.events ++ rest.events }

theorem All.map {f : α → β} {p : β → Prop} {dialogue : Dialogue α}
    (h : dialogue.All fun a => p (f a)) : (dialogue.map f).All p := by
  induction dialogue with
  | done result => exact h
  | ask bytes next ih => exact fun grant => ih grant (h grant)

theorem All.mono {p q : α → Prop} {dialogue : Dialogue α} (h : dialogue.All p)
    (himp : ∀ a, p a → q a) : dialogue.All q := by
  induction dialogue with
  | done result => exact himp _ h
  | ask bytes next ih => exact fun grant => ih grant (h grant)

end Dialogue

end RegionHeap.Sized
