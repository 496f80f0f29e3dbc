import RegionHeap.Proofs.Growth.Linear
import RegionHeap.Proofs.Growth.Source

/-!
# Exact providers

A provider is exact in the states that fit if a request for whole units either
changes nothing about where its region ends, or extends the region by exactly
what was asked for, answers the old end, and tells its observer of that block,
if it has one. A linear region is exact over every page store that keeps its
contract. Growth through a break is exact if the system moves the break by
exactly what it is asked for.
-/
namespace RegionHeap.Growth

open Checked

variable {ρ : Type} [Provider ρ]

/-- The notice of a block to an observer, if there is one. -/
def noticesOf (watcher : Option Observer) (grant : Grant) : List (Observer × Grant) :=
  (watcher.map (·, grant)).toList

/-- What becomes of a request for `bytes` bytes. `stop` says where a region ends. -/
inductive Provider.Grows (stop : ρ → Nat) (watcher : Option Observer) (bytes : Nat)
    (provider : ρ) : Reply (Option Nat) ρ → Prop
  | refused {next : ρ} {events : List Event} :
      stop next = stop provider → noticesIn events = [] →
      Grows stop watcher bytes provider ⟨none, next, events⟩
  | granted {next : ρ} {events : List Event} :
      stop next = stop provider + bytes →
      noticesIn events = noticesOf watcher ⟨stop provider, bytes⟩ →
      Grows stop watcher bytes provider ⟨some (stop provider), next, events⟩

/-- What the books of a source rely on in its provider. -/
structure Provider.Exact (unit : Nat) (stop : ρ → Nat) (watcher : Option Observer)
    (Fit : ρ → Prop) : Prop where
  power : Word.isPowerOfTwo unit
  word : unit < Word.bound
  pageSize : ∀ {provider}, Fit provider → Provider.pageSize provider = unit
  grow : ∀ {provider} {bytes : Nat}, Fit provider → 0 < bytes → unit ∣ bytes →
    bytes ≤ Word.signedMax →
    ∃ reply, Provider.grow (bytes : Int) provider = .ok reply ∧ Fit reply.state ∧
      Provider.Grows stop watcher bytes provider reply ∧
      requestsIn reply.events = [] ∧ linesIn reply.events = []

namespace Linear

variable {μ : Type} [PageStore μ] {Fit : μ → Prop} {first region : Linear μ}

structure Follows (Fit : μ → Prop) (first region : Linear μ) : Prop where
  fit : Fit region.store
  base : PageStore.base region.store = PageStore.base first.store
  observer : region.observer = first.observer

theorem pagesFor_of_dvd {bytes : Nat} (h : linearPageSize ∣ bytes) :
    pagesFor bytes * linearPageSize = bytes := by
  obtain ⟨pages, rfl⟩ := h
  simp only [pagesFor, linearPageSize, Int.toNat_natCast]
  omega

theorem exact (contract : PageStore.Contract Fit) (first : Linear μ) :
    Provider.Exact linearPageSize stop first.observer (Follows Fit first) where
  power := by decide
  word := by decide
  pageSize _ := rfl
  grow := by
    intro region bytes hfollows hpos hunit hsigned
    have hdelta : (0 : Int) < bytes := Int.natCast_pos.mpr hpos
    have hmax : (bytes : Int) ≤ Word.signedMax := Int.ofNat_le.mpr hsigned
    have hpages := pagesFor_of_dvd hunit
    have hbase := contract.base hfollows.fit (pagesFor_lt hmax)
    have hfit := contract.fit hfollows.fit (pagesFor_lt hmax)
    cases grown contract hfollows.fit hdelta hmax with
    | refused hstore hsize hgrow =>
      rw [hstore] at hbase hfit
      refine ⟨_, hgrow, ⟨hfit, hbase.trans hfollows.base, hfollows.observer⟩, ?_, rfl, rfl⟩
      exact .refused (by rw [stop, stop, hbase, hsize]) rfl
    | granted hstore hsize htop hgrow =>
      rw [hstore] at hbase hfit
      rw [top_eq, Option.ite_none_right_eq_some, Option.some.injEq] at htop
      obtain ⟨-, rfl⟩ := htop
      rw [hpages] at hgrow
      refine ⟨_, hgrow, ⟨hfit, hbase.trans hfollows.base, hfollows.observer⟩, ?_, ?_, ?_⟩
      · rw [← hfollows.observer]
        refine .granted ?_ ?_
        · rw [stop, hbase, hsize, Nat.add_mul, hpages, ← Nat.add_assoc, ← stop]
        · cases region.observer <;> rfl
      · cases region.observer <;> rfl
      · cases region.observer <;> rfl

theorem Follows.size {bytes : Nat} (h : Follows Fit first region)
    (hstop : region.stop = first.stop + bytes) :
    PageStore.size region.store * linearPageSize =
      PageStore.size first.store * linearPageSize + bytes := by
  rw [stop, stop, h.base, Nat.add_assoc] at hstop
  exact Nat.add_left_cancel hstop

end Linear

/-- A system that keeps the break of a process and moves it upwards when it is asked to. -/
class BreakSystem (κ : Type) where
  session : κ → Session
  /-- The current break. -/
  top : κ → Nat
  /-- Move the break by so many bytes; answer where it was unless the system refuses. -/
  move : Nat → κ → Option Nat × κ

namespace BreakSystem

/-- The break is moved by exactly what was asked for, or not at all. -/
structure Contract (κ : Type) [BreakSystem κ] : Prop where
  session : ∀ (delta : Nat) (process : κ),
    BreakSystem.session (BreakSystem.move delta process).2 = BreakSystem.session process
  move : ∀ (delta : Nat) (process : κ),
    (BreakSystem.move delta process).1 = none ∧
        BreakSystem.top (BreakSystem.move delta process).2 = BreakSystem.top process ∨
      (BreakSystem.move delta process).1 = some (BreakSystem.top process) ∧
        BreakSystem.top (BreakSystem.move delta process).2 = BreakSystem.top process + delta

variable {κ : Type} [BreakSystem κ]

def grow (delta : Int) (process : κ) : Checked (Reply (Option Nat) κ) :=
  if delta < 0 then
    return ⟨none, process, []⟩
  else
    let (previous, process) := move delta.toNat process
    return ⟨previous, process, []⟩

/-- Growth through the break of any system. -/
instance (priority := low) provider : Provider κ where
  grow := grow
  pageSize process := (session process).ensureReady.pageSize

/-- A request that is not negative reaches the system. -/
theorem grow_natCast (bytes : Nat) (process : κ) :
    Provider.grow (bytes : Int) process =
      .ok ⟨(move bytes process).1, (move bytes process).2, []⟩ := by
  change grow (bytes : Int) process = _
  rw [grow, if_neg (Int.not_lt.mpr (Int.natCast_nonneg bytes))]
  rfl

/-- However the system moves the break, it answers; and the page size is the session's. -/
theorem reliable (hsession : ∀ (delta : Nat) (process : κ),
      session (move delta process).2 = session process) :
    Provider.Reliable fun process : κ =>
      Word.isPowerOfTwo (session process).ensureReady.pageSize where
  unit h := h
  grow := by
    intro process bytes h _
    exact ⟨_, grow_natCast bytes process, by rwa [hsession]⟩

theorem exact (contract : Contract κ) {unit : Nat} (hpower : Word.isPowerOfTwo unit)
    (hword : unit < Word.bound) :
    Provider.Exact unit (top : κ → Nat) none
      fun process => (session process).ensureReady.pageSize = unit where
  power := hpower
  word := hword
  pageSize h := h
  grow := by
    intro process bytes hunit _ _ _
    have hsession := contract.session bytes process
    have hmove := contract.move bytes process
    have hgrow := grow_natCast bytes process
    rcases hmoved : move bytes process with ⟨previous, next⟩
    rw [hmoved] at hsession hmove hgrow
    refine ⟨_, hgrow, by rw [hsession, hunit], ?_, rfl, rfl⟩
    rcases hmove with ⟨rfl, htop⟩ | ⟨rfl, htop⟩
    · exact .refused htop rfl
    · exact .granted htop rfl

end BreakSystem

namespace Break

instance : BreakSystem Break where
  session := session
  top := top
  move := advance

theorem provider_eq : (inferInstance : Provider Break) = BreakSystem.provider := rfl

theorem contract : BreakSystem.Contract Break where
  session delta process := by
    change (advance delta process).2.session = _
    unfold advance
    split <;> rfl
  move delta process := by
    change (advance delta process).1 = none ∧ (advance delta process).2.top = process.top ∨
      (advance delta process).1 = some process.top ∧
        (advance delta process).2.top = process.top + delta
    unfold advance
    split
    · exact .inr ⟨rfl, rfl⟩
    · exact .inl ⟨rfl, rfl⟩

end Break

end RegionHeap.Growth
