import RegionHeap.Growth.Break
import RegionHeap.Growth.Linear
import RegionHeap.Growth.Source
import RegionHeap.Proofs.Trace
import RegionHeap.Proofs.Word

/-!
# Reliable providers

A provider is reliable in the states that fit if its unit is a power of two
there and if it answers whatever a signed word can ask for, granting or
refusing, and is fit again. Over such a provider a source always comes to an
answer. A provider that is firm does not change when it refuses; whatever it
granted before is then still all that it has granted.
-/
namespace RegionHeap.Growth

open Checked

variable {ρ : Type} [Provider ρ]

/-- What a source needs of its provider to come to an answer. -/
structure Provider.Reliable (Fit : ρ → Prop) : Prop where
  unit : ∀ {provider}, Fit provider → Word.isPowerOfTwo (Provider.pageSize provider)
  grow : ∀ {provider} {bytes : Nat}, Fit provider → bytes ≤ Word.signedMax →
    ∃ reply, Provider.grow (bytes : Int) provider = .ok reply ∧ Fit reply.state

/-- A refusal leaves the provider as it was. -/
def Provider.Firm (ρ : Type) [Provider ρ] : Prop :=
  ∀ {provider : ρ} {delta : Int} {reply}, Provider.grow delta provider = .ok reply →
    reply.answer = none → reply.state = provider

/-- What a provider was asked for, with its answers. -/
def requestsIn (events : List Event) : List (Int × Option Nat) :=
  events.filterMap fun
    | .growthAsked delta base => some (delta, base)
    | _ => none

/-- What was told, and to whom. -/
def noticesIn (events : List Event) : List (Observer × Grant) :=
  events.filterMap fun
    | .noticed observer base bytes => some (observer, ⟨base, bytes⟩)
    | _ => none

/-- The lines that were written. -/
def linesIn (events : List Event) : List (List UInt8) :=
  events.filterMap fun
    | .traced line => some line
    | _ => none

section events

variable (first second : List Event)

@[simp] theorem requestsIn_append :
    requestsIn (first ++ second) = requestsIn first ++ requestsIn second := List.filterMap_append

@[simp] theorem noticesIn_append :
    noticesIn (first ++ second) = noticesIn first ++ noticesIn second := List.filterMap_append

@[simp] theorem linesIn_append :
    linesIn (first ++ second) = linesIn first ++ linesIn second := List.filterMap_append

end events

/-- Somewhere among the events a source was granted what it asked for. -/
def Granted (events : List Event) : Prop :=
  ∃ delta base, Event.growthAsked delta (some base) ∈ events

namespace Source

variable {Fit : ρ → Prop} {provider : ρ} {level : Trace.Level} {bytes size : Nat}
  {reply : Reply (Option Grant) ρ}

theorem ask_returns (reliable : Provider.Reliable Fit) (hfit : Fit provider)
    (h : bytes ≤ Word.signedMax) (level : Trace.Level) :
    ∃ reply, ask level bytes provider = .ok reply ∧ Fit reply.state := by
  obtain ⟨grown, hgrow, hgrown⟩ := reliable.grow hfit h
  have hword : bytes < Word.bound := Nat.lt_of_le_of_lt h (by decide)
  have hrejected := Trace.rejection_eq level hword
  have hgranted := Trace.grant_eq level hword
  rw [ask, Word.signed_of_le h, hgrow, ok_bind]
  cases hanswer : grown.answer with
  | none => exact ⟨_, by rw [hrejected]; rfl, hgrown⟩
  | some base => exact ⟨_, by rw [hgranted]; rfl, hgrown⟩

/-- A source over a reliable provider answers every word, and its provider stays fit. -/
theorem obtain_returns (reliable : Provider.Reliable Fit) (hfit : Fit provider)
    (h : size < Word.bound) (level : Trace.Level) :
    ∃ reply, obtain level size provider = .ok reply ∧ Fit reply.state := by
  rw [obtain, Word.roundUp_of_isPowerOfTwo size (reliable.unit hfit), ok_bind]
  split
  · rename_i bytes hbytes
    have hsigned := of_decide_eq_true (Option.filter_eq_some_iff.mp hbytes).2
    exact ask_returns reliable hfit hsigned level
  · exact ⟨_, by rw [Trace.rejection_eq level h]; rfl, hfit⟩

theorem state_of_not_granted (firm : Provider.Firm ρ) (h : obtain level size provider = .ok reply)
    (hnone : ¬Granted reply.events) : reply.state = provider := by
  obtain ⟨rounded, _, h⟩ := bind_eq_ok.mp h
  split at h
  · obtain ⟨grown, hgrow, h⟩ := bind_eq_ok.mp h
    cases hanswer : grown.answer with
    | none =>
      rw [hanswer] at h
      obtain ⟨line, _, h⟩ := bind_eq_ok.mp h
      cases h
      exact firm hgrow hanswer
    | some base =>
      rw [hanswer] at h
      obtain ⟨line, _, h⟩ := bind_eq_ok.mp h
      cases h
      exact absurd ⟨Word.signed _, base, List.mem_append_left _ List.mem_cons_self⟩ hnone
  · obtain ⟨line, _, h⟩ := bind_eq_ok.mp h
    cases h
    rfl

end Source

namespace Linear

variable {μ : Type} [PageStore μ]

theorem reliable : Provider.Reliable fun _ : Linear μ => True where
  unit _ := show Word.isPowerOfTwo linearPageSize by decide
  grow := by
    intro region bytes _ _
    have hpage : Word.isPowerOfTwo linearPageSize := by decide
    have hround := Word.roundUp_of_isPowerOfTwo (bytes : Int).toNat hpage
    generalize (Word.add? _ _).map _ = rounded at hround
    change ∃ reply, Linear.grow _ _ = .ok reply ∧ True
    rw [Linear.grow]
    split
    · exact ⟨_, rfl, trivial⟩
    · split
      · exact ⟨_, rfl, trivial⟩
      · rw [hround, ok_bind]
        cases rounded <;> exact ⟨_, rfl, trivial⟩

end Linear

namespace Break

/-- The page size of the session is a power of two, started or not. -/
def Paged (process : Break) : Prop := Word.isPowerOfTwo process.session.ensureReady.pageSize

/-- A break is moved as far as was asked for, or stays where it is. -/
theorem grow_cases {process : Break} {delta : Int} {reply : Reply (Option Nat) Break}
    (h : grow delta process = .ok reply) :
    reply.answer = none ∧ reply.state = process ∨
      reply.answer = some process.top ∧
        reply.state = { process with top := process.top + delta.toNat } := by
  simp only [grow, advance] at h
  by_cases hroom : delta.toNat < 1 <<< 47 ∧ process.top + delta.toNat < Word.max
  · rw [if_pos hroom] at h
    split at h
    · cases h
      exact .inl ⟨rfl, rfl⟩
    · cases h
      exact .inr ⟨rfl, rfl⟩
  · rw [if_neg hroom, ite_self] at h
    cases h
    exact .inl ⟨rfl, rfl⟩

theorem reliable : Provider.Reliable Paged where
  unit h := h
  grow := by
    intro process bytes h _
    obtain ⟨reply, hreply⟩ : ∃ reply, grow (bytes : Int) process = .ok reply :=
      ⟨_, if_neg (Int.not_lt.mpr (Int.natCast_nonneg bytes))⟩
    have hsession : reply.state.session = process.session := by
      rcases grow_cases hreply with ⟨-, hstate⟩ | ⟨-, hstate⟩ <;> rw [hstate]
    exact ⟨reply, hreply, by rwa [Paged, hsession]⟩

theorem firm : Provider.Firm Break := by
  intro process delta reply h hnone
  rcases grow_cases h with ⟨-, hstate⟩ | ⟨hsome, -⟩
  · exact hstate
  · cases hnone.symm.trans hsome

end Break

end RegionHeap.Growth
