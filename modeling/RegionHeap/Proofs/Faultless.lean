import RegionHeap.Proofs.Framed.Runs
import RegionHeap.Proofs.Gateway
import RegionHeap.Proofs.Growth.Exact
import RegionHeap.Proofs.Host.Ascending
import RegionHeap.Proofs.Native
import RegionHeap.Proofs.Script
import RegionHeap.Proofs.Session

/-!
# No fault is reachable

A fault is a sum, a difference or an index that leaves its range, or a condition that does not
hold. Whoever uses a heap through the gateway, by any requests in words about nothing or about
a block that is held, comes to the end without any. This needs nothing of the setting of the
trace or of the page size that the system reports, and of the provider only that its unit is a
power of two and that it answers what a signed word can ask for. Linear growth is such a
provider over every page store. Growth through a break is one because the page size of a
session is a power of two from the start and whatever is reported.
-/
namespace RegionHeap

open Checked

namespace Script

variable {σ : Type} [Heap σ] {Fits : σ → Std.TreeMap Nat Nat → Prop} {table : Table σ}
  {request : Request} {slot : Nat}

/-- The heap keeps its promises, and what is in a slot is held, and is in no other slot. -/
structure Table.Lawful (Fits : σ → Std.TreeMap Nat Nat → Prop) (table : Table σ) : Prop where
  fits : Fits table.client.heap table.client.held
  held : ∀ {slot block}, table.slots slot = some block → block ∈ table.client.held
  distinct : ∀ {a b block}, table.slots a = some block → table.slots b = some block → a = b

namespace Table.Lawful

omit [Heap σ] in
theorem blank {heap : σ} (hfits : Fits heap ∅) : Table.Lawful Fits (.blank heap) where
  fits := hfits
  held hblock := by cases hblock
  distinct ha _ := by cases ha

omit [Heap σ] in
theorem update (h : Table.Lawful Fits table) {next : Client σ} {block : Option Nat}
    (hfits : Fits next.heap next.held) (hblock : ∀ address ∈ block, address ∈ next.held)
    (hothers : ∀ other address, other ≠ slot → table.slots other = some address →
      address ∈ next.held ∧ block ≠ some address) :
    Table.Lawful Fits ⟨next, Function.update table.slots slot block⟩ where
  fits := hfits
  held := by
    intro other address hother
    simp only [Function.update_apply] at hother
    split at hother
    · exact hblock address hother
    · rename_i hne
      exact (hothers other address hne hother).1
  distinct := distinct_update h.distinct fun other address hne hother =>
    (hothers other address hne hother).2

omit [Heap σ] in
/-- What is not inside a block is not read and not written. -/
theorem access (h : Table.Lawful Fits table) {len offset : Nat}
    {use : Nat → Checked (Answer Nat (List UInt8) × Client σ)}
    (huse : ∀ {block}, table.client.covers block offset len → ∃ answer next,
      use block = .ok (answer, next) ∧ Fits next.heap next.held ∧ next.held = table.client.held)
    (slot : Nat) :
    ∃ reply, table.access slot offset len use = .ok reply ∧ Table.Lawful Fits reply.state := by
  unfold Table.access
  split
  · exact ⟨_, rfl, h⟩
  · split
    · rename_i hcovers
      obtain ⟨answer, next, hused, hfits, hsame⟩ := huse hcovers
      refine ⟨_, bind_eq_ok.mpr ⟨_, hused, rfl⟩, hfits, fun hblock => ?_, h.distinct⟩
      exact hsame ▸ h.held hblock
    · exact ⟨_, rfl, h⟩

theorem read (h : Table.Lawful Fits table) (slot offset len : Nat) :
    ∃ reply, table.step (.read slot offset len) = .ok reply ∧ Table.Lawful Fits reply.state := by
  refine h.access (fun {block} hcovers => ?_) slot
  have hread : table.client.read block offset len =
      .ok ((Heap.memory table.client.heap).bytes (block + offset) len) := by
    rw [Client.read, require_of .strayAccess hcovers]
    rfl
  exact ⟨_, _, bind_eq_ok.mpr ⟨_, hread, rfl⟩, h.fits, rfl⟩

section serves

variable (contract : Heap.Contract Fits)

include contract

theorem serve (h : Table.Lawful Fits table) (hwords : request.Words)
    (hsubject : request.subject? = table.slots slot) :
    ∃ reply, table.serve slot request = .ok reply ∧ Table.Lawful Fits reply.state := by
  have hheld : ∀ block ∈ request.subject?, block ∈ table.client.held := fun block hblock =>
    h.held (hsubject ▸ hblock)
  obtain ⟨reply, hreply⟩ := Client.serve_returns contract h.fits hwords hheld
  obtain ⟨met, hfits, hrecord⟩ := Client.serve_met contract h.fits hwords hreply
  have hmine : ∀ {other address}, other ≠ slot → table.slots other = some address →
      request.subject? ≠ some address := fun hne hother hsame =>
    hne (h.distinct hother (hsubject ▸ hsame))
  refine ⟨_, bind_eq_ok.mpr ⟨reply, hreply, rfl⟩, h.update hfits ?_ ?_⟩
  · intro block hblock
    rw [hrecord, Client.mem_recordAfter met.silent]
    cases hanswer : reply.answer with
    | some new =>
      rw [hanswer] at hblock
      exact .inl hblock
    | none =>
      rw [hanswer, Table.settled] at hblock
      split at hblock
      · cases hblock
      · rename_i hkeeps
        rw [Request.ended?_none (Bool.eq_false_iff.mpr hkeeps)]
        exact .inr ⟨fun hended => (by cases hended), h.held hblock⟩
  · intro other address hne hother
    refine ⟨?_, fun hblock => ?_⟩
    · rw [hrecord, Client.mem_recordAfter met.silent]
      exact .inr ⟨fun hended => hmine hne hother (Request.subject?_of_ended? hended),
        h.held hother⟩
    · cases hanswer : reply.answer with
      | some new =>
        rw [hanswer] at hblock
        obtain rfl : new = address := Option.some.inj hblock
        rcases met.fresh hanswer with hfree | hsame
        · obtain ⟨size, hsize⟩ := Record.mem_iff.mp (h.held hother)
          cases hfree.symm.trans hsize
        · exact hmine hne hother hsame
      | none =>
        rw [hanswer, Table.settled] at hblock
        split at hblock
        · cases hblock
        · exact hne (h.distinct hother hblock)

theorem write (h : Table.Lawful Fits table) (slot offset : Nat) (bytes : List UInt8) :
    ∃ reply, table.step (.write slot offset bytes) = .ok reply ∧ Table.Lawful Fits reply.state := by
  refine h.access (fun {block} hcovers => ?_) slot
  obtain ⟨next, hnext⟩ : ∃ next, table.client.update block offset bytes.length (fun address =>
      bytes.getD (address - (block + offset)) 0) = .ok next :=
    ⟨_, Client.update_eq_ok.mpr ⟨hcovers, rfl⟩⟩
  exact ⟨_, _, bind_eq_ok.mpr ⟨next, hnext, rfl⟩, Client.fits_update contract h.fits hnext,
    Client.held_of_update hnext⟩

theorem step (h : Table.Lawful Fits table) {action : Action} (hwords : action.Words) :
    ∃ reply, table.step action = .ok reply ∧ Table.Lawful Fits reply.state := by
  cases action with
  | obtain slot request =>
    by_cases hnew : table.slots slot = none ∧ IsNew request
    · rw [Table.step_obtain hnew.1 hnew.2]
      exact h.serve contract hwords (hnew.2.1.trans hnew.1.symm)
    · have hrequest : table.request? (.obtain slot request) = none := if_neg hnew
      simp only [Table.step, hrequest]
      exact ⟨_, rfl, h⟩
  | resize slot size => exact h.serve contract hwords rfl
  | release slot => exact h.serve contract trivial rfl
  | write slot offset bytes => exact h.write contract slot offset bytes
  | read slot offset len => exact h.read slot offset len

theorem run (h : Table.Lawful Fits table) {actions : List Action}
    (hwords : ∀ action ∈ actions, action.Words) :
    ∃ played, table.run actions = .ok played ∧ Table.Lawful Fits played.state := by
  induction actions generalizing table with
  | nil => exact ⟨_, rfl, h⟩
  | cons action rest ih =>
    obtain ⟨hfirst, hrest⟩ := List.forall_mem_cons.mp hwords
    obtain ⟨first, hstep, hafter⟩ := h.step contract hfirst
    obtain ⟨others, hothers, hend⟩ := ih hafter hrest
    refine ⟨⟨first.answer :: others.answer, others.state, first.events ++ others.events⟩, ?_, hend⟩
    rw [Table.run, hstep, ok_bind, hothers, ok_bind, pure_eq_ok]

end serves

end Table.Lawful

end Script

namespace Decimal

/-- The difference of two bytes. -/
def subBytes (a b : UInt8) : Checked UInt8 :=
  if b ≤ a then .ok (a - b) else .error .underflow

/-- `readFrom` with a fault where a difference of bytes would be negative. -/
def checkedReadFrom : Nat → List UInt8 → Checked (Option Nat)
  | read, [] => return some read
  | read, byte :: rest =>
    if isDigit byte then do
      let digit ← subBytes byte zero
      checkedReadFrom (Word.addSat (Word.mulSat read 10) digit.toNat) rest
    else
      return none

/-- `read?` with a fault where a difference of bytes would be negative. -/
def checkedRead (text : List UInt8) : Checked (Option Nat) :=
  if text.isEmpty then return none else checkedReadFrom 0 text

theorem checkedReadFrom_eq (read : Nat) (text : List UInt8) :
    checkedReadFrom read text = .ok (readFrom read text) := by
  induction text generalizing read with
  | nil => rfl
  | cons byte rest ih =>
    rw [checkedReadFrom, readFrom]
    by_cases hdigit : isDigit byte
    · have hzero : zero ≤ byte := by
        rw [isDigit, Bool.and_eq_true] at hdigit
        exact of_decide_eq_true hdigit.1
      have hsub : subBytes byte zero = .ok (byte - zero) := if_pos hzero
      rw [if_pos hdigit, if_pos hdigit, hsub, ok_bind, ih]
    · rw [if_neg hdigit, if_neg hdigit]
      rfl

theorem checkedRead_eq (text : List UInt8) : checkedRead text = .ok (read? text) := by
  rw [checkedRead, read?]
  split
  · rfl
  · exact checkedReadFrom_eq 0 text

end Decimal

section heaps

open Growth (Break BreakSystem Linear PageStore Provider)
open Script (Action Table)
open Sized (Allocator TopSpace)

/-- A provider that takes a negative request for a fault. -/
structure Wary (ρ : Type) where
  behind : ρ

instance {ρ : Type} [Provider ρ] : Provider (Wary ρ) where
  grow delta wary := do
    Checked.require (0 ≤ delta) .underflow
    let reply ← Provider.grow delta wary.behind
    return ⟨reply.answer, ⟨reply.state⟩, reply.events⟩
  pageSize wary := Provider.pageSize wary.behind
  growsZeroed wary := Provider.growsZeroed wary.behind

/-- A source never makes a negative request, so it may rely on such a provider too. -/
theorem Wary.reliable {ρ : Type} [Provider ρ] {Fit : ρ → Prop} (reliable : Provider.Reliable Fit) :
    Provider.Reliable fun wary : Wary ρ => Fit wary.behind where
  unit h := reliable.unit h
  grow := by
    intro wary bytes hfit hsigned
    obtain ⟨reply, hreply, hnext⟩ := reliable.grow hfit hsigned
    refine ⟨⟨reply.answer, ⟨reply.state⟩, reply.events⟩, ?_, hnext⟩
    change (Checked.require (0 ≤ (bytes : Int)) .underflow >>= _) = _
    rw [require_of .underflow (Int.natCast_nonneg bytes), ok_bind, hreply]
    rfl

/-- Played through the gateway to the heap, and through its exported operations, the script
comes to its end. -/
def Plays {σ : Type} [Heap σ] (heap : σ) (actions : List Action) : Prop :=
  (∃ played, (Table.blank (Gateway.mk heap)).run actions = .ok played) ∧
    ∃ played, (Table.blank (Exports.mk (Gateway.mk heap))).run actions = .ok played

theorem plays_of_contract {σ : Type} [Heap σ] {Fits : σ → Std.TreeMap Nat Nat → Prop}
    (contract : Heap.Contract Fits) {heap : σ} (hfits : Fits heap ∅) {actions : List Action}
    (hwords : ∀ action ∈ actions, action.Words) : Plays heap actions := by
  have hgateway := Gateway.meets_contract contract
  have hexports := Exports.passes.meets_contract hgateway
  have hblank : Table.Lawful (fun (gateway : Gateway σ) held => Fits gateway.bound held)
      (.blank ⟨heap⟩) := .blank hfits
  have hblank' : Table.Lawful (fun (exported : Exports σ) held => Fits exported.gateway.bound held)
      (.blank ⟨⟨heap⟩⟩) := .blank hfits
  obtain ⟨played, hplayed, -⟩ := hblank.run hgateway hwords
  obtain ⟨played', hplayed', -⟩ := hblank'.run hexports hwords
  exact ⟨⟨played, hplayed⟩, played', hplayed'⟩

variable {η α ρ : Type} [HostAllocator η] [Allocator α] [Provider ρ] {SoundHost : η → Prop}
  {Sound : α → ρ → Memory → Prop} {Fit : ρ → Prop}

/-- Every script in words is played to its end without a fault, on the native heap over any host
allocator and on a framed heap over any allocator and any provider that is reliable, as long as
these keep their contracts, and whatever session there is. A provider is still reliable if it
takes negative requests for faults, so none is ever made. A linear region is reliable over every
page store. Growth through the break of any system is reliable where the page size of its
session is a power of two, and from a cold session on this is so whatever is reported. The
digits of a setting are read without a fault, whatever the setting is. -/
theorem plays_of_words (host : HostAllocator.Contract SoundHost)
    (contract : Sized.Contract Sound) (reliable : Provider.Reliable Fit) {provider : ρ}
    (hsound : Sound Allocator.empty provider .empty) (hfit : Fit provider) (session : Session)
    {actions : List Action} (hwords : ∀ action ∈ actions, action.Words) :
    Plays (Native.initial : Native η) actions ∧
      Plays (Framed.ofSession session provider : Framed α ρ) actions ∧
      (Provider.Reliable fun wary : Wary ρ => Fit wary.behind) ∧
      (∀ {μ : Type} [PageStore μ], Provider.Reliable fun _ : Linear μ => True) ∧
      (∀ {κ : Type} [BreakSystem κ], (∀ (delta : Nat) (process : κ),
          BreakSystem.session (BreakSystem.move delta process).2 = BreakSystem.session process) →
        Provider.Reliable fun process : κ =>
          Word.isPowerOfTwo (BreakSystem.session process).ensureReady.pageSize) ∧
      (∀ (setting : Option (List UInt8)) (reported : Nat),
        Word.isPowerOfTwo (Session.ensureReady { setting, reported }).pageSize) ∧
      ∀ text, Decimal.checkedRead text = .ok (Decimal.read? text) := by
  have fresh : (Framed.ofSession session provider : Framed α ρ).Fresh Sound Fit :=
    ⟨rfl, hsound, hfit⟩
  refine ⟨?_, ?_, Wary.reliable reliable, Linear.reliable, BreakSystem.reliable, ?_,
    Decimal.checkedRead_eq⟩
  · exact plays_of_contract (Native.meets_contract host) (Native.fits_initial host) hwords
  · exact plays_of_contract (Framed.meets_contract contract reliable) (fresh.fits contract) hwords
  · exact fun _ _ => Session.power_ensureReady Session.defaultPageSize_good.1

/-- Requests around `2 ^ 63` and `2 ^ 64`, for nothing and for a block. -/
def brink : List Action :=
  [.resize 0 Word.max, .obtain 0 (.allocate Word.signedMax),
    .obtain 0 (.allocateAligned (1 <<< 63) (1 <<< 63)),
    .obtain 0 (.allocateZeroedAligned 3 (1 <<< 32) (1 <<< 32)), .obtain 0 (.allocateZeroed 3 5),
    .resize 0 (Word.max - 15), .release 0, .release 0]

/-- A setting of thirty digits, and a page size that is none. -/
def oddSession : Session := { setting := some (List.replicate 30 57), reported := Word.max }

theorem plays_of_words_brink : (∀ action ∈ brink, action.Words) ∧
    Plays (Native.initial : Native Ascending) brink ∧
    Plays (Framed.ofSession oddSession ⟨Break.initial oddSession⟩ : Framed TopSpace (Wary Break))
      brink := by
  have hwords : ∀ action ∈ brink, action.Words := by decide
  have hpaged : Break.Paged (Break.initial oddSession) :=
    Session.power_ensureReady Session.defaultPageSize_good.1
  obtain ⟨hnative, hframed, -⟩ := plays_of_words Ascending.meets_contract
    TopSpace.meets_contract (Wary.reliable Break.reliable) TopSpace.tidy_empty hpaged oddSession
    hwords
  exact ⟨hwords, hnative, hframed⟩

end heaps

end RegionHeap
