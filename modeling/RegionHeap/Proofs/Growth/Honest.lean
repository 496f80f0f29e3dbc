import RegionHeap.Proofs.Growth.Exact
import RegionHeap.Proofs.Growth.Linear.Runs
import RegionHeap.Proofs.Session

/-!
# Honest providers

A provider is honest in the states that fit if a block that it gives is memory which it had
given to nobody before, and if what it gave stays given. How far it grows, when it refuses
and whether its blocks follow each other is up to it. A linear region is honest over every
page store that keeps its contract, and growth through a break if the system moves the break
by exactly what it is asked for.
-/
namespace RegionHeap.Growth

open Checked

namespace Grant

/-- The address is one of the block. -/
def Has (grant : Grant) (address : Nat) : Prop :=
  grant.base ≤ address ∧ address < grant.base + grant.size

/-- No address is one of both. -/
def Apart (a b : Grant) : Prop := ∀ address, a.Has address → ¬b.Has address

end Grant

/-- What the blocks of a source rely on in its provider. `granted` says of an address that
the provider has given it to somebody. -/
structure Provider.Honest {ρ : Type} [Provider ρ] (Fit : ρ → Prop)
    (granted : ρ → Nat → Prop) : Prop where
  power : ∀ {provider}, Fit provider → Word.isPowerOfTwo (Provider.pageSize provider)
  word : ∀ {provider}, Fit provider → Provider.pageSize provider < Word.bound
  fit : ∀ {provider} {delta : Int} {reply}, Fit provider → delta ≤ Word.signedMax →
    Provider.grow delta provider = .ok reply → Fit reply.state
  kept : ∀ {provider} {delta : Int} {reply}, Fit provider → delta ≤ Word.signedMax →
    Provider.grow delta provider = .ok reply →
    ∀ address, granted provider address → granted reply.state address
  block : ∀ {provider} {delta : Int} {reply base}, Fit provider → 0 < delta →
    delta ≤ Word.signedMax → Provider.grow delta provider = .ok reply →
    reply.answer = some base →
    ∀ {address}, (Grant.mk base delta.toNat).Has address →
      granted reply.state address ∧ ¬granted provider address

namespace Linear

variable {μ : Type} [PageStore μ] {Fit : μ → Prop} {region : Linear μ} {delta : Int}

/-- The address belongs to one of the pages that there are. -/
def Covers (region : Linear μ) (address : Nat) : Prop :=
  PageStore.base region.store ≤ address ∧ address < region.stop

theorem le_pagesFor (delta : Int) : delta.toNat ≤ pagesFor delta * linearPageSize := by
  simp only [pagesFor, linearPageSize]
  omega

theorem honest (contract : PageStore.Contract Fit) :
    Provider.Honest (fun region : Linear μ => Fit region.store) Covers where
  power _ := show Word.isPowerOfTwo linearPageSize by decide
  word _ := show linearPageSize < Word.bound by decide
  fit hfit hsigned hgrow := (does_grow contract hfit hsigned hgrow).fit
  kept := by
    intro region delta reply hfit hsigned hgrow address ⟨hlow, hhigh⟩
    have hdoes := does_grow contract hfit hsigned hgrow
    have hstop := hdoes.stop
    exact ⟨hdoes.base ▸ hlow, Nat.lt_of_lt_of_le hhigh (hstop ▸ Nat.le_add_right _ _)⟩
  block := by
    intro region delta reply base hfit hpos hsigned hgrow hanswer address ⟨hlow, hhigh⟩
    have hdoes := does_grow contract hfit hsigned hgrow
    have hstop := hdoes.stop
    have hgiven : (Deed.grew delta reply.answer).grant? =
        some ⟨base, pagesFor delta * linearPageSize⟩ := by
      rw [hanswer]
      exact if_pos hpos
    have hpages : (Deed.grew delta reply.answer).pages = pagesFor delta := by rw [hanswer]; rfl
    have hbase : base = region.stop := hdoes.granted hgiven
    rw [hpages] at hstop
    have hroom := le_pagesFor delta
    have hregion : PageStore.base region.store ≤ region.stop := Nat.le_add_right _ _
    dsimp only at hlow hhigh
    refine ⟨⟨?_, by omega⟩, fun hcovers => ?_⟩
    · rw [hdoes.base]
      omega
    · have := hcovers.2
      omega

end Linear

namespace BreakSystem

variable {κ : Type} [BreakSystem κ]

/-- The break has passed the address since it was at `origin`. -/
def Passed (origin : Nat) (process : κ) (address : Nat) : Prop :=
  origin ≤ address ∧ address < top process

structure Started (origin : Nat) (process : κ) : Prop where
  sound : (session process).Sound
  above : origin ≤ top process

/-- The break is not moved by a negative number, and by all others as far as was asked for. -/
theorem grow_cases (contract : Contract κ) {delta : Int} {process : κ}
    {reply : Reply (Option Nat) κ} (h : Provider.grow delta process = .ok reply) :
    session reply.state = session process ∧
      (reply.answer = none ∧ top reply.state = top process ∨
        reply.answer = some (top process) ∧ top reply.state = top process + delta.toNat) := by
  change grow delta process = _ at h
  unfold grow at h
  split at h
  · cases h
    exact ⟨rfl, .inl ⟨rfl, rfl⟩⟩
  · have hsession := contract.session delta.toNat process
    have hmove := contract.move delta.toNat process
    cases h
    exact ⟨hsession, hmove⟩

theorem honest (contract : Contract κ) (origin : Nat) :
    Provider.Honest (Started origin : κ → Prop) (Passed origin) where
  power hfit := hfit.sound.ensureReady.power
  word hfit := hfit.sound.ensureReady.word
  fit := by
    intro process delta reply hfit _ hgrow
    obtain ⟨hsession, hmoved⟩ := grow_cases contract hgrow
    have habove := hfit.above
    exact ⟨hsession ▸ hfit.sound, by omega⟩
  kept := by
    intro process delta reply _ _ hgrow address ⟨hlow, hhigh⟩
    obtain ⟨-, hmoved⟩ := grow_cases contract hgrow
    exact ⟨hlow, by omega⟩
  block := by
    intro process delta reply base hfit _ _ hgrow hanswer address ⟨hlow, hhigh⟩
    obtain ⟨-, ⟨hnone, -⟩ | ⟨hsome, htop⟩⟩ := grow_cases contract hgrow
    · cases hnone.symm.trans hanswer
    · obtain rfl := Option.some.inj (hsome.symm.trans hanswer)
      have habove := hfit.above
      dsimp only at hlow hhigh
      exact ⟨⟨Nat.le_trans habove hlow, htop ▸ hhigh⟩,
        fun hpassed => Nat.not_le.mpr hpassed.2 hlow⟩

end BreakSystem

namespace Break

/-- A process that has grown nothing, with the default page size. -/
def fresh : Break := initial { setting := none, reported := 4096 }

theorem sound_fresh : fresh.session.Sound := Session.sound_cold none (by decide)

theorem grow_of_room {process : Break} {bytes : Nat} (hdelta : bytes < 1 <<< 47)
    (hroom : process.top + bytes < Word.max) :
    Provider.grow (bytes : Int) process =
      .ok ⟨some process.top, { process with top := process.top + bytes }, []⟩ := by
  have hmove : process.advance bytes =
      (some process.top, { process with top := process.top + bytes }) := if_pos ⟨hdelta, hroom⟩
  have hgrow := BreakSystem.grow_natCast bytes process
  change Provider.grow (bytes : Int) process =
    .ok ⟨(process.advance bytes).1, (process.advance bytes).2, []⟩ at hgrow
  rwa [hmove] at hgrow

end Break

end RegionHeap.Growth
