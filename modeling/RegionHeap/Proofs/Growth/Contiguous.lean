import RegionHeap.Proofs.Growth.Source.Adapter

/-!
# Contiguous providers

A contiguous provider is exact, and of the blocks that it gives one more thing is known, which
an allocator may need in order to use them. At any level of reports a source over it either
has its region end where it ended or extends it by a block that is large enough.
-/
namespace RegionHeap.Growth

variable {ρ : Type} [Provider ρ]

/-- An exact provider that gives only blocks of a certain kind. -/
structure Provider.Contiguous (unit : Nat) (stop : ρ → Nat) (watcher : Option Observer)
    (Given : Grant → Prop) (Fit : ρ → Prop) : Prop
    extends Provider.Exact unit stop watcher Fit where
  given : ∀ {provider reply base} {bytes : Nat}, Fit provider → unit ∣ bytes →
    Provider.grow (bytes : Int) provider = .ok reply → reply.answer = some base →
    Given ⟨base, bytes⟩

/-- What a source makes of a request for `size` bytes to a region that ends at `stop`. -/
inductive Source.Continues (stop : ρ → Nat) (Given : Grant → Prop) (size : Nat) (provider : ρ) :
    Reply (Option Grant) ρ → Prop
  | refused {next : ρ} {events : List Event} :
      stop next = stop provider → Continues stop Given size provider ⟨none, next, events⟩
  | granted {bytes : Nat} {next : ρ} {events : List Event} :
      Given ⟨stop provider, bytes⟩ → size ≤ bytes → stop next = stop provider + bytes →
      Continues stop Given size provider ⟨some ⟨stop provider, bytes⟩, next, events⟩

variable {unit size : Nat} {stop : ρ → Nat} {watcher : Option Observer} {Given : Grant → Prop}
  {Fit : ρ → Prop} {provider : ρ}

theorem Source.obtain_continues (contiguous : Provider.Contiguous unit stop watcher Given Fit)
    (hfit : Fit provider) (hpos : 0 < size) (hword : size < Word.bound) (level : Trace.Level) :
    ∃ reply, obtain level size provider = .ok reply ∧ Fit reply.state ∧
      Continues stop Given size provider reply := by
  have hpage := contiguous.pageSize hfit
  have hpower : Word.isPowerOfTwo (Provider.pageSize provider) := hpage ▸ contiguous.power
  have hunit := Word.pos_of_isPowerOfTwo hpower
  have hbound : Provider.pageSize provider < Word.bound := hpage ▸ contiguous.word
  rw [obtain_eq_ask level hpower hbound hword]
  by_cases hfits : multiple size provider ≤ Word.signedMax
  · have hsize : size ≤ multiple size provider := Word.le_ceiling size hunit
    have hdvd : unit ∣ multiple size provider := hpage ▸ Nat.dvd_mul_left _ _
    obtain ⟨grown, hgrow, hnext, hgrows, -, -⟩ :=
      contiguous.grow hfit (Nat.lt_of_lt_of_le hpos hsize) hdvd hfits
    rw [if_pos hfits, ask_eq_map level hfits, hgrow]
    refine ⟨_, rfl, hnext, ?_⟩
    cases hgrows with
    | refused hstop => exact .refused hstop
    | granted hstop => exact .granted (contiguous.given hfit hdvd hgrow rfl) hsize hstop
  · rw [if_neg hfits]
    exact ⟨_, rfl, hfit, .refused rfl⟩

end RegionHeap.Growth
