import RegionHeap.Gateway
import RegionHeap.Proofs.Heap

/-!
# The gateway keeps the contract of the heap behind it

Every operation of the gateway, and every exported one, is the request to the
bound heap and nothing else, so whatever is promised for the heap is promised
for the gateway, and for the exported operations before it.
-/
namespace RegionHeap

open Checked

variable {σ τ υ : Type} [Heap σ] [Heap τ] [Heap υ] {Fits : σ → Std.TreeMap Nat Nat → Prop}

/-- A heap that passes every request on to the one behind it, and every answer back. -/
structure Heap.Passes (wrap : σ → τ) (inner : τ → σ) : Prop where
  inner_wrap : ∀ heap, inner (wrap heap) = heap
  serve : ∀ request heap, Heap.serve request heap = do
    let reply ← Heap.serve request (inner heap)
    return ⟨reply.answer, wrap reply.state, reply.events⟩
  memory : ∀ heap, Heap.memory heap = Heap.memory (inner heap)
  withMemory : ∀ m heap, inner (Heap.withMemory m heap) = Heap.withMemory m (inner heap)

namespace Heap.Passes

theorem refl : Heap.Passes (id : σ → σ) id where
  inner_wrap _ := rfl
  serve request heap := by
    rw [id_eq]
    cases Heap.serve request heap <;> rfl
  memory _ := rfl
  withMemory _ _ := rfl

theorem trans {wrap : σ → τ} {inner : τ → σ} {wrap' : τ → υ} {inner' : υ → τ}
    (h : Heap.Passes wrap inner) (h' : Heap.Passes wrap' inner') :
    Heap.Passes (wrap' ∘ wrap) (inner ∘ inner') where
  inner_wrap heap := by simp only [Function.comp, h'.inner_wrap, h.inner_wrap]
  serve request heap := by
    rw [h'.serve, h.serve]
    simp only [Function.comp]
    cases Heap.serve request (inner (inner' heap)) <;> rfl
  memory heap := (h'.memory heap).trans (h.memory _)
  withMemory m heap := by simp only [Function.comp, h'.withMemory, h.withMemory]

variable {wrap : σ → τ} {inner : τ → σ}

theorem serve_eq_ok (h : Heap.Passes wrap inner) {request : Request} {heap : τ}
    {reply : Reply (Option Nat) τ} :
    Heap.serve request heap = .ok reply ↔ ∃ behind, Heap.serve request (inner heap) = .ok behind ∧
      reply = ⟨behind.answer, wrap behind.state, behind.events⟩ := by
  rw [h.serve, bind_eq_ok]
  simp only [pure_eq_ok, Except.ok.injEq, eq_comm]

/-- What is promised for a heap is promised for one that passes all on to it. -/
theorem meets_contract (h : Heap.Passes wrap inner) (contract : Heap.Contract Fits) :
    Heap.Contract fun heap held => Fits (inner heap) held where
  serve := by
    intro heap held request hfits hwords hheld
    obtain ⟨reply, hreply, met, hnext⟩ := contract.serve hfits hwords hheld
    refine ⟨_, h.serve_eq_ok.mpr ⟨reply, hreply, rfl⟩, ?_, ?_⟩
    · rwa [h.memory, h.memory, h.inner_wrap]
    · rwa [h.inner_wrap]
  apart hfits := contract.apart hfits
  memory_withMemory := by
    intro heap m
    rw [h.memory, h.withMemory, contract.memory_withMemory]
  write hfits hbytes := by
    rw [h.withMemory]
    exact contract.write hfits fun address hfree => (hbytes address hfree).trans (by rw [h.memory])

theorem granular (h : Heap.Passes wrap inner) (granular : Heap.Granular Fits) :
    Heap.Granular fun heap held => Fits (inner heap) held := by
  intro heap held request reply block hfits hwords hheld hplain hserve hanswer
  obtain ⟨behind, hbehind, rfl⟩ := h.serve_eq_ok.mp hserve
  exact granular hfits hwords hheld hplain hbehind hanswer

end Heap.Passes

namespace Gateway

theorem serve_eq (request : Request) (gateway : Gateway σ) :
    Heap.serve request gateway = gateway.forward request := by
  cases request <;> rfl

theorem passes : Heap.Passes (@Gateway.mk σ) Gateway.bound where
  inner_wrap _ := rfl
  serve := serve_eq
  memory _ := rfl
  withMemory _ _ := rfl

theorem meets_contract (contract : Heap.Contract Fits) :
    Heap.Contract fun (gateway : Gateway σ) held => Fits gateway.bound held :=
  passes.meets_contract contract

end Gateway

namespace Exports

theorem serve_eq (request : Request) (exported : Exports σ) :
    Heap.serve request exported = relay (Heap.serve request exported.gateway) := by
  cases request <;> rfl

theorem passes : Heap.Passes (@Exports.mk σ) Exports.gateway where
  inner_wrap _ := rfl
  serve := serve_eq
  memory _ := rfl
  withMemory _ _ := rfl

end Exports

end RegionHeap
