import Mathlib.Data.List.Basic
import RegionHeap.Proofs.Framed.Runs
import RegionHeap.Proofs.Gateway
import RegionHeap.Proofs.Host.Ascending
import RegionHeap.Proofs.Layout
import RegionHeap.Proofs.Native

/-!
# The life of a pointer

A pointer should have a block behind it exactly as long as its layout is not
empty. Obtaining, releasing and resizing what was empty keep it so. Resizing a
block to no bytes does not: the heap answers a block, the layout says that there
is none, and from then on nobody can give it back. The blocks of a client are
therefore those of its pointers together with the ones that were lost in this
way, and each of these is lost for good.
-/
namespace RegionHeap.Layout

open Checked
open Framed (onBreak onBreak_fresh)
open Growth (Break)
open Record (Lists)
open Sized (TopSpace)

inductive Deed where
  | obtained (layout : Layout) (answer : Option Nat)
  | resized (pointer : Pointer) (size : Nat) (answer : Option Nat)
  | released (pointer : Pointer)
deriving Repr, DecidableEq

namespace Deed

/-- The pointers afterwards, if they were `live` before. -/
def after (live : List Pointer) : Deed → List Pointer
  | obtained layout (some new) => ⟨new, layout⟩ :: live
  | resized pointer size (some new) => ⟨new, ⟨size, pointer.layout.align⟩⟩ :: live.erase pointer
  | released pointer => live.erase pointer
  | _ => live

/-- The block that is lost: its pointer had a layout that was not empty, and has one that is. -/
def lost? : Deed → Option (Nat × Nat)
  | resized pointer size answer =>
    if pointer.layout.size ≠ 0 ∧ size = 0 then answer.map (·, 0) else none
  | _ => none

end Deed

/-- The pointers that are live after some deeds. -/
def liveAfter (deeds : List Deed) : List Pointer := deeds.foldl Deed.after []

/-- The blocks that were lost, in order. -/
def lostIn (deeds : List Deed) : List (Nat × Nat) := deeds.filterMap Deed.lost?

/-- The blocks behind some pointers. -/
def owned (live : List Pointer) : List (Nat × Nat) := live.filterMap Pointer.block?

theorem owned_cons (pointer : Pointer) (live : List Pointer) :
    owned (pointer :: live) = pointer.block?.toList ++ owned live := by
  cases hblock : pointer.block? <;> simp [owned, hblock]

theorem owned_erase {pointer : Pointer} {live : List Pointer} (h : pointer ∈ live) :
    (owned live).Perm (pointer.block?.toList ++ owned (live.erase pointer)) := by
  rw [← owned_cons]
  exact (List.perm_cons_erase h).filterMap _

theorem liveAfter_concat (deeds : List Deed) (deed : Deed) :
    liveAfter (deeds ++ [deed]) = deed.after (liveAfter deeds) := by
  rw [liveAfter, List.foldl_append]
  rfl

theorem lostIn_concat (deeds : List Deed) (deed : Deed) :
    lostIn (deeds ++ [deed]) = lostIn deeds ++ deed.lost?.toList := by
  rw [lostIn, List.filterMap_append]
  cases hlost : deed.lost? <;> simp [lostIn, hlost]

theorem lostIn_of_none {deed : Deed} (h : deed.lost? = none) (deeds : List Deed) :
    lostIn (deeds ++ [deed]) = lostIn deeds := by
  rw [lostIn_concat, h]
  exact List.append_nil _

variable {σ : Type} [Heap σ] {Fits : σ → Std.TreeMap Nat Nat → Prop} {first client : Client σ}
  {deeds : List Deed}

/-- Every client that a first one can become by operations on layouts, each of them on a
layout or a pointer as it may be, and by writes into its blocks. -/
inductive Run (first : Client σ) : List Deed → Client σ → Prop
  | start : Run first [] first
  | allocate {deeds : List Deed} {client : Client σ} {layout : Layout}
      {reply : Reply (Option Nat) (Client σ)} :
      Run first deeds client → layout.Valid → layout.allocate client = .ok reply →
      Run first (deeds ++ [.obtained layout reply.answer]) reply.state
  | allocateZeroed {deeds : List Deed} {client : Client σ} {layout : Layout}
      {reply : Reply (Option Nat) (Client σ)} :
      Run first deeds client → layout.Valid → layout.allocateZeroed client = .ok reply →
      Run first (deeds ++ [.obtained layout reply.answer]) reply.state
  | resize {deeds : List Deed} {client : Client σ} {size : Nat}
      {reply : Reply (Option Nat) (Client σ)} (pointer : Pointer) :
      Run first deeds client → pointer ∈ liveAfter deeds →
      (Layout.mk size pointer.layout.align).Valid →
      pointer.layout.resize pointer.address size client = .ok reply →
      Run first (deeds ++ [.resized pointer size reply.answer]) reply.state
  | release {deeds : List Deed} {client : Client σ} {reply : Reply (Option Nat) (Client σ)}
      (pointer : Pointer) :
      Run first deeds client → pointer ∈ liveAfter deeds →
      pointer.layout.release pointer.address client = .ok reply →
      Run first (deeds ++ [.released pointer]) reply.state
  | write {deeds : List Deed} {client next : Client σ} {block offset len : Nat}
      {f : Nat → UInt8} :
      Run first deeds client → client.update block offset len f = .ok next →
      Run first deeds next

/-- The blocks of the client are those of its pointers and the lost ones, and what is empty
dangles or was lost. -/
structure Account (Fits : σ → Std.TreeMap Nat Nat → Prop) (deeds : List Deed)
    (client : Client σ) : Prop where
  holds : client.Holds Fits (owned (liveAfter deeds) ++ lostIn deeds)
  empty : ∀ pointer ∈ liveAfter deeds, pointer.layout.size = 0 →
    pointer.address = pointer.layout.dangling ∨ (pointer.address, 0) ∈ lostIn deeds

namespace Account

omit [Heap σ] in
theorem obtained {next : Client σ} {layout : Layout} {answer : Option Nat}
    (h : Account Fits deeds client)
    (holds : next.Holds Fits ((answer.bind fun new => (Pointer.mk new layout).block?).toList ++
      (owned (liveAfter deeds) ++ lostIn deeds)))
    (hdangling : layout.size = 0 → answer = some layout.dangling) :
    Account Fits (deeds ++ [.obtained layout answer]) next := by
  constructor <;> rw [lostIn_of_none rfl, liveAfter_concat]
  · cases answer with
    | none => exact holds
    | some new =>
      rw [Deed.after, owned_cons, List.append_assoc]
      exact holds
  · cases answer with
    | none => exact h.empty
    | some new =>
      refine List.forall_mem_cons.mpr ⟨fun hempty => .inl ?_, h.empty⟩
      exact Option.some.inj (hdangling hempty)

section pointer

variable {pointer : Pointer} {next : Client σ} {size : Nat} {answer : Option Nat}

omit [Heap σ] in
/-- What is behind a live pointer can be told apart from all the rest. -/
theorem split (h : Account Fits deeds client) (hlive : pointer ∈ liveAfter deeds) :
    client.Holds Fits (pointer.block?.toList ++
      (owned ((liveAfter deeds).erase pointer) ++ lostIn deeds)) := by
  rw [← List.append_assoc]
  exact h.holds.perm ((owned_erase hlive).append_right _)

omit [Heap σ] in
theorem released (h : Account Fits deeds client)
    (holds : next.Holds Fits (owned ((liveAfter deeds).erase pointer) ++ lostIn deeds)) :
    Account Fits (deeds ++ [.released pointer]) next := by
  constructor <;> rw [lostIn_of_none rfl, liveAfter_concat]
  · exact holds
  · exact fun other hother => h.empty other (List.mem_of_mem_erase hother)

omit [Heap σ] in
theorem stayed (h : Account Fits deeds client) (hlive : pointer ∈ liveAfter deeds)
    (holds : next.Holds Fits (pointer.block?.toList ++
      (owned ((liveAfter deeds).erase pointer) ++ lostIn deeds))) :
    Account Fits (deeds ++ [.resized pointer size none]) next := by
  have hnone : (Deed.resized pointer size none).lost? = none := ite_self none
  constructor <;> rw [lostIn_of_none hnone, liveAfter_concat]
  · rw [← List.append_assoc] at holds
    exact holds.perm ((owned_erase hlive).symm.append_right _)
  · exact h.empty

omit [Heap σ] in
/-- The block behind a resized pointer is behind its successor, or is lost. -/
theorem resized {new : Nat} (h : Account Fits deeds client)
    (hresult : if pointer.layout.size = 0 then
        next.Holds Fits ((Pointer.mk new ⟨size, pointer.layout.align⟩).block?.toList ++
          (owned ((liveAfter deeds).erase pointer) ++ lostIn deeds)) ∧
        (size = 0 → new = pointer.layout.align)
      else next.Holds Fits ((new, size) ::
        (owned ((liveAfter deeds).erase pointer) ++ lostIn deeds))) :
    Account Fits (deeds ++ [.resized pointer size (some new)]) next := by
  have hothers : ∀ other ∈ (liveAfter deeds).erase pointer, other.layout.size = 0 →
      other.address = other.layout.dangling ∨ (other.address, 0) ∈ lostIn deeds :=
    fun other hother => h.empty other (List.mem_of_mem_erase hother)
  by_cases hlost : pointer.layout.size ≠ 0 ∧ size = 0
  · obtain ⟨hblock, rfl⟩ := hlost
    rw [if_neg hblock] at hresult
    have hmore : lostIn (deeds ++ [.resized pointer 0 (some new)]) =
        lostIn deeds ++ [(new, 0)] := by
      rw [lostIn_concat, Deed.lost?, if_pos ⟨hblock, rfl⟩]
      rfl
    constructor <;> rw [hmore, liveAfter_concat, Deed.after]
    · rw [owned_cons, Pointer.block?, if_pos rfl, ← List.append_assoc]
      exact hresult.perm (List.perm_append_singleton _ _).symm
    · refine List.forall_mem_cons.mpr ⟨fun _ => .inr (by simp), fun other hother hempty => ?_⟩
      exact (hothers other hother hempty).imp_right (List.mem_append_left _)
  · have hnone : (Deed.resized pointer size (some new)).lost? = none := if_neg hlost
    have hfull : next.Holds Fits ((Pointer.mk new ⟨size, pointer.layout.align⟩).block?.toList ++
        (owned ((liveAfter deeds).erase pointer) ++ lostIn deeds)) ∧
        (size = 0 → new = pointer.layout.align) := by
      by_cases hempty : pointer.layout.size = 0
      · rwa [if_pos hempty] at hresult
      · rw [if_neg hempty] at hresult
        have hsize : size ≠ 0 := fun hzero => hlost ⟨hempty, hzero⟩
        have hblock : (Pointer.mk new ⟨size, pointer.layout.align⟩).block? = some (new, size) :=
          block?_of_pos hsize new
        rw [hblock]
        exact ⟨hresult, (absurd · hsize)⟩
    constructor <;> rw [lostIn_of_none hnone, liveAfter_concat, Deed.after]
    · rw [owned_cons, List.append_assoc]
      exact hfull.1
    · exact List.forall_mem_cons.mpr ⟨fun hempty => .inl (hfull.2 hempty), hothers⟩

end pointer

end Account

theorem Run.account (contract : Heap.Contract Fits) (hfirst : first.Holds Fits [])
    (h : Run first deeds client) : Account Fits deeds client := by
  induction h with
  | start => exact ⟨hfirst, List.forall_mem_nil _⟩
  | allocate _ hvalid hdone ih =>
    obtain ⟨reply, hreply, holds, hdangling⟩ := allocate_spec contract ih.holds hvalid
    obtain rfl := Except.ok.inj (hdone.symm.trans hreply)
    exact ih.obtained holds hdangling
  | allocateZeroed _ hvalid hdone ih =>
    obtain ⟨reply, hreply, holds, hdangling⟩ := allocateZeroed_spec contract ih.holds hvalid
    obtain rfl := Except.ok.inj (hdone.symm.trans hreply)
    exact ih.obtained holds hdangling
  | @resize _ _ _ reply _ _ hlive hvalid hdone ih =>
    obtain ⟨same, hsame, hresult⟩ := resize_spec contract (ih.split hlive) hvalid
    obtain rfl : reply = same := Except.ok.inj (hdone.symm.trans hsame)
    cases hanswer : reply.answer with
    | none =>
      rw [hanswer] at hresult
      exact ih.stayed hlive hresult
    | some new =>
      rw [hanswer] at hresult
      exact ih.resized hresult
  | release _ _ hlive hdone ih =>
    obtain ⟨reply, hreply, -, holds⟩ := release_spec contract (ih.split hlive)
    obtain rfl := Except.ok.inj (hdone.symm.trans hreply)
    exact ih.released holds
  | write _ hwrite ih =>
    have hheld := Client.held_of_update hwrite
    exact ⟨⟨Client.fits_update contract ih.holds.fits hwrite, hheld ▸ ih.holds.lists⟩, ih.empty⟩

/-- A pointer is backed by a block exactly if its layout is not empty: what is empty dangles,
and the blocks of the client are those behind its other pointers, one behind each. -/
structure Lifecycle (live : List Pointer) (client : Client σ) : Prop where
  dangling : ∀ pointer ∈ live, pointer.layout.size = 0 →
    pointer.address = pointer.layout.dangling
  backed : Lists client.held (owned live)

/-- Pointers live as they should after a run exactly if nothing was lost in it. -/
theorem lifecycle_of_run (contract : Heap.Contract Fits) {start : σ} (hstart : Fits start ∅)
    (hrun : Run ⟨start, ∅⟩ deeds client) :
    (Lifecycle (liveAfter deeds) client ↔ lostIn deeds = []) ∧
      Lists client.held (owned (liveAfter deeds) ++ lostIn deeds) ∧
      (liveAfter deeds = [] → ((∀ block, block ∉ client.held) ↔ lostIn deeds = [])) ∧
      (∀ {layout : Layout}, layout.Valid → (∃ reply, layout.allocate client = .ok reply) ∧
        ∃ reply, layout.allocateZeroed client = .ok reply) ∧
      ∀ pointer ∈ liveAfter deeds,
        (∃ reply, pointer.layout.release pointer.address client = .ok reply) ∧
        ∀ {size : Nat}, (Layout.mk size pointer.layout.align).Valid →
          ∃ reply, pointer.layout.resize pointer.address size client = .ok reply := by
  have account := hrun.account contract ⟨hstart, .nil⟩
  refine ⟨⟨?_, ?_⟩, account.holds.lists, ?_, ?_, ?_⟩
  · intro lifecycle
    exact lifecycle.backed.eq_nil_of_append account.holds.lists
  · intro hnone
    have hlists := account.holds.lists
    rw [hnone, List.append_nil] at hlists
    exact ⟨fun pointer hlive hempty =>
      (account.empty pointer hlive hempty).resolve_right (by simp [hnone]), hlists⟩
  · intro hlive
    have hlists := account.holds.lists
    rw [hlive] at hlists
    exact hlists.eq_nil_iff.symm
  · intro layout hvalid
    obtain ⟨reply, hreply, -⟩ := allocate_spec contract account.holds hvalid
    obtain ⟨zeroed, hzeroed, -⟩ := allocateZeroed_spec contract account.holds hvalid
    exact ⟨⟨reply, hreply⟩, zeroed, hzeroed⟩
  · intro pointer hlive
    obtain ⟨reply, hreply, -⟩ := release_spec contract (account.split hlive)
    refine ⟨⟨reply, hreply⟩, fun {size} hvalid => ?_⟩
    obtain ⟨resized, hresized, -⟩ := resize_spec contract (account.split hlive) hvalid
    exact ⟨resized, hresized⟩

/-- What programs use in a new process whose heap is on its break. -/
def onGateway : Gateway (Framed TopSpace Break) := ⟨onBreak⟩

theorem onGateway_contract : Heap.Contract fun (gateway : Gateway (Framed TopSpace Break)) held =>
    Framed.Fits (TopSpace.Sound Break) Break.Paged gateway.bound held :=
  Gateway.meets_contract (Framed.meets_contract TopSpace.meets_contract Break.reliable)

/-- An empty layout is given bytes, then more of them, which moves its block. -/
theorem lifecycle_of_run_moved : ∃ client, Run ⟨onGateway, ∅⟩
      [.obtained ⟨0, 64⟩ (some 64), .resized ⟨64, ⟨0, 64⟩⟩ 100 (some 0x10000000080),
        .resized ⟨0x10000000080, ⟨100, 64⟩⟩ 200 (some 0x10000000180)] client ∧
    Lifecycle [⟨0x10000000180, ⟨200, 64⟩⟩] client ∧
    ∃ reply, (Layout.mk 200 64).release 0x10000000180 client = .ok reply := by
  have hcomputed : (do
      let first ← (Layout.mk 0 64).allocate (Client.mk onGateway ∅)
      let second ← (Layout.mk 0 64).resize 64 100 first.state
      let third ← (Layout.mk 100 64).resize 0x10000000080 200 second.state
      return (first.answer, second.answer, third.answer) : Checked _) =
      .ok (some 64, some 0x10000000080, some 0x10000000180) := by decide +kernel
  obtain ⟨first, hfirst, hcomputed⟩ := bind_eq_ok.mp hcomputed
  obtain ⟨second, hsecond, hcomputed⟩ := bind_eq_ok.mp hcomputed
  obtain ⟨third, hthird, hanswers⟩ := bind_eq_ok.mp hcomputed
  simp only [pure_eq_ok, Except.ok.injEq, Prod.mk.injEq] at hanswers
  obtain ⟨hone, htwo, hthree⟩ := hanswers
  have hrun := Run.start.allocate (by decide) hfirst
  rw [hone] at hrun
  have hrun := hrun.resize ⟨64, ⟨0, 64⟩⟩ (by decide) (by decide) hsecond
  rw [htwo] at hrun
  have hrun := hrun.resize ⟨0x10000000080, ⟨100, 64⟩⟩ (by decide) (by decide) hthird
  rw [hthree] at hrun
  obtain ⟨hlife, -, -, -, hlive⟩ := lifecycle_of_run onGateway_contract
    (onBreak_fresh.fits TopSpace.meets_contract) hrun
  exact ⟨_, hrun, hlife.mpr (by decide), (hlive ⟨0x10000000180, ⟨200, 64⟩⟩ (by decide)).1⟩

/-- What programs use in a hosted process at first. -/
def onHost : Gateway (Native Ascending) := ⟨.initial⟩

theorem onHost_contract : Heap.Contract fun (gateway : Gateway (Native Ascending)) held =>
    Native.Fits Ascending.Sound gateway.bound held :=
  Gateway.meets_contract (Native.meets_contract Ascending.meets_contract)

/-- A block that is resized to no bytes outlives every pointer. -/
theorem lost_block : ∃ client, Run ⟨onHost, ∅⟩
      [.obtained ⟨10, 8⟩ (some 0x100000000), .resized ⟨0x100000000, ⟨10, 8⟩⟩ 0 (some 0x100000010),
        .released ⟨0x100000010, ⟨0, 8⟩⟩] client ∧
    liveAfter [.obtained ⟨10, 8⟩ (some 0x100000000),
      .resized ⟨0x100000000, ⟨10, 8⟩⟩ 0 (some 0x100000010),
      .released ⟨0x100000010, ⟨0, 8⟩⟩] = [] ∧
    0x100000010 ∈ client.held ∧ ¬Lifecycle [] client := by
  have hcomputed : (do
      let first ← (Layout.mk 10 8).allocate (Client.mk onHost ∅)
      let second ← (Layout.mk 10 8).resize 0x100000000 0 first.state
      let third ← (Layout.mk 0 8).release 0x100000010 second.state
      return (first.answer, second.answer, third.answer) : Checked _) =
      .ok (some 0x100000000, some 0x100000010, none) := by decide +kernel
  obtain ⟨first, hfirst, hcomputed⟩ := bind_eq_ok.mp hcomputed
  obtain ⟨second, hsecond, hcomputed⟩ := bind_eq_ok.mp hcomputed
  obtain ⟨third, hthird, hanswers⟩ := bind_eq_ok.mp hcomputed
  simp only [pure_eq_ok, Except.ok.injEq, Prod.mk.injEq] at hanswers
  obtain ⟨hone, htwo, -⟩ := hanswers
  have hrun := Run.start.allocate (by decide) hfirst
  rw [hone] at hrun
  have hrun := hrun.resize ⟨0x100000000, ⟨10, 8⟩⟩ (by decide) (by decide) hsecond
  rw [htwo] at hrun
  have hrun := hrun.release ⟨0x100000010, ⟨0, 8⟩⟩ (by decide) hthird
  have hlists := (hrun.account onHost_contract
    ⟨Native.fits_initial Ascending.meets_contract, .nil⟩).holds.lists
  have hheld : 0x100000010 ∈ third.state.held :=
    Record.mem_iff.mpr ⟨0, hlists.iff.mpr (by decide)⟩
  refine ⟨_, hrun, by decide, hheld, fun lifecycle => ?_⟩
  exact lifecycle.backed.eq_nil_iff.mp rfl _ hheld

end RegionHeap.Layout
