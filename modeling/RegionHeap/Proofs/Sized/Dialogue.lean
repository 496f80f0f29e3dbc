import RegionHeap.Proofs.Growth.Source
import RegionHeap.Sized.Dialogue

/-!
# Holding a dialogue

What holds of every result of a dialogue holds of the result that a source
leads it to. A dialogue that asks for words only comes to a result over every
reliable provider. And if nothing was granted on the way, a firm provider is
afterwards what it was before. Dialogues that ask the same come to their results
over the same provider in the same way.
-/
namespace RegionHeap.Sized.Dialogue

open Checked
open Growth (Granted Provider Source.obtain Source.obtain_returns Source.state_of_not_granted)

variable {α β ρ : Type} [Provider ρ] {dialogue : Dialogue α} {provider : ρ}
  {level : Trace.Level} {reply : Reply α ρ}

/-- Every question of the dialogue satisfies `p`, whatever the answers. -/
def Asks (p : Nat → Prop) : Dialogue α → Prop
  | done _ => True
  | ask bytes next => p bytes ∧ ∀ grant, (next grant).Asks p

theorem Asks.map {p : Nat → Prop} (f : α → β) (h : dialogue.Asks p) : (dialogue.map f).Asks p := by
  induction dialogue with
  | done result => trivial
  | ask bytes next ih => exact ⟨h.1, fun grant => ih grant (h.2 grant)⟩

theorem Asks.mono {p q : Nat → Prop} (h : dialogue.Asks p) (himp : ∀ bytes, p bytes → q bytes) :
    dialogue.Asks q := by
  induction dialogue with
  | done result => trivial
  | ask bytes next ih => exact ⟨himp bytes h.1, fun grant => ih grant (h.2 grant)⟩

theorem run_ask_eq_ok {bytes : Nat} {next : Option Growth.Grant → Dialogue α} :
    (ask bytes next).run level provider = .ok reply ↔
      ∃ first rest, Source.obtain level bytes provider = .ok first ∧
        (next first.answer).run level first.state = .ok rest ∧
        reply = { rest with events := first.events ++ rest.events } := by
  constructor
  · intro h
    obtain ⟨first, hfirst, h⟩ := bind_eq_ok.mp h
    obtain ⟨rest, hrest, h⟩ := bind_eq_ok.mp h
    exact ⟨first, rest, hfirst, hrest, (Except.ok.inj h).symm⟩
  · intro hparts
    rcases hparts with ⟨first, rest, hfirst, hrest, rfl⟩
    rw [run, hfirst, ok_bind, hrest, ok_bind, pure_eq_ok]

theorem answer_of_map {f : α → β} {reply : Reply β ρ}
    (h : (dialogue.map f).run level provider = .ok reply) :
    ∃ inner, dialogue.run level provider = .ok inner ∧ reply.answer = f inner.answer := by
  induction dialogue generalizing provider reply with
  | done result =>
    obtain rfl := Except.ok.inj h
    exact ⟨_, rfl, rfl⟩
  | ask bytes next ih =>
    obtain ⟨first, rest, hfirst, hrest, rfl⟩ := run_ask_eq_ok.mp h
    obtain ⟨inner, hinner, hanswer⟩ := ih first.answer hrest
    exact ⟨_, run_ask_eq_ok.mpr ⟨first, inner, hfirst, hinner, rfl⟩, hanswer⟩

theorem All.run {p : α → Prop} (h : dialogue.All p)
    (hrun : dialogue.run level provider = .ok reply) : p reply.answer := by
  induction dialogue generalizing provider reply with
  | done result =>
    cases hrun
    exact h
  | ask bytes next ih =>
    obtain ⟨first, rest, _, hrest, rfl⟩ := run_ask_eq_ok.mp hrun
    have hresult : p rest.answer := ih first.answer (h first.answer) hrest
    exact hresult

/-- A dialogue about words ends with a result, and its provider stays fit. -/
theorem Asks.run_returns {Fit : ρ → Prop} (h : dialogue.Asks (· < Word.bound))
    (reliable : Provider.Reliable Fit) (hfit : Fit provider) (level : Trace.Level) :
    ∃ reply, dialogue.run level provider = .ok reply ∧ Fit reply.state := by
  induction dialogue generalizing provider with
  | done result => exact ⟨_, rfl, hfit⟩
  | ask bytes next ih =>
    obtain ⟨first, hfirst, hfirstFit⟩ := Source.obtain_returns reliable hfit h.1 level
    obtain ⟨rest, hrest, hrestFit⟩ := ih first.answer (h.2 first.answer) hfirstFit
    exact ⟨_, run_ask_eq_ok.mpr ⟨first, rest, hfirst, hrest, rfl⟩, hrestFit⟩

theorem state_of_not_granted (firm : Provider.Firm ρ)
    (hrun : dialogue.run level provider = .ok reply) (hnone : ¬Granted reply.events) :
    reply.state = provider := by
  induction dialogue generalizing provider reply with
  | done result =>
    cases hrun
    rfl
  | ask bytes next ih =>
    obtain ⟨first, rest, hfirst, hrest, rfl⟩ := run_ask_eq_ok.mp hrun
    have hrestState := ih first.answer hrest fun ⟨delta, base, hmem⟩ =>
      hnone ⟨delta, base, List.mem_append_right _ hmem⟩
    have hfirstState := Source.state_of_not_granted firm hfirst fun ⟨delta, base, hmem⟩ =>
      hnone ⟨delta, base, List.mem_append_left _ hmem⟩
    exact hrestState.trans hfirstState

/-- Two dialogues ask the same questions and come to related results after the same answers. -/
def Both (related : α → β → Prop) : Dialogue α → Dialogue β → Prop
  | done a, done b => related a b
  | ask bytes next, ask bytes' next' =>
    bytes = bytes' ∧ ∀ grant, (next grant).Both related (next' grant)
  | _, _ => False

section both

variable {α' β' : Type} {other : Dialogue β} {related : α → β → Prop} {after : α' → β' → Prop}

theorem Both.refl {related : α → α → Prop} (h : ∀ a, related a a) (dialogue : Dialogue α) :
    dialogue.Both related dialogue := by
  induction dialogue with
  | done result => exact h result
  | ask bytes next ih => exact ⟨rfl, ih⟩

theorem Both.map {f : α → α'} {g : β → β'} (h : dialogue.Both related other)
    (hafter : ∀ {a b}, related a b → after (f a) (g b)) :
    (dialogue.map f).Both after (other.map g) := by
  induction dialogue generalizing other with
  | done a =>
    cases other with
    | done b => exact hafter h
    | ask bytes next => cases h
  | ask bytes next ih =>
    cases other with
    | done b => cases h
    | ask bytes' next' => exact ⟨h.1, fun grant => ih grant (h.2 grant)⟩

theorem Both.run {reply : Reply β ρ} (h : dialogue.Both related other)
    (hrun : other.run level provider = .ok reply) :
    ∃ result, dialogue.run level provider = .ok ⟨result, reply.state, reply.events⟩ ∧
      related result reply.answer := by
  induction dialogue generalizing other provider reply with
  | done a =>
    cases other with
    | done b =>
      cases hrun
      exact ⟨a, rfl, h⟩
    | ask bytes next => cases h
  | ask bytes next ih =>
    cases other with
    | done b => cases h
    | ask bytes' next' =>
      obtain ⟨rfl, hnext⟩ := h
      obtain ⟨first, rest, hfirst, hrest, rfl⟩ := run_ask_eq_ok.mp hrun
      obtain ⟨result, hresult, hrelated⟩ := ih first.answer (hnext first.answer) hrest
      exact ⟨result, run_ask_eq_ok.mpr ⟨first, _, hfirst, hresult, rfl⟩, hrelated⟩

end both

end RegionHeap.Sized.Dialogue
