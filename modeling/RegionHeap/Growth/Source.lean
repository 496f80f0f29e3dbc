import RegionHeap.Growth.Provider
import RegionHeap.Trace.Level

/-!
# The source of memory

The source stands between an allocator, which asks for any number of bytes,
and a provider, which grows in whole units by a signed amount. It rounds the
request up, refuses by itself what no signed number can ask for, asks the
provider once, and reports the outcome to the trace: a refusal of its own with
the size that was wanted, one of the provider with the size that was asked for.
-/
namespace RegionHeap.Growth

/-- Memory that a source gave. -/
structure Grant where
  base : Nat
  size : Nat
deriving Repr, DecidableEq

namespace Source

/-- The event of a trace line, if there is a line. -/
def traceEvents (line : Option (List UInt8)) : List Event :=
  match line with
  | some text => [.traced text]
  | none => []

variable {ρ : Type} [Provider ρ]

/-- Ask the provider for exactly `bytes` bytes, which must fit a signed number. -/
def ask (level : Trace.Level) (bytes : Nat) (provider : ρ) :
    Checked (Reply (Option Grant) ρ) := do
  let delta := Word.signed bytes
  let reply ← Provider.grow delta provider
  let asked := Event.growthAsked delta reply.answer :: reply.events
  match reply.answer with
  | none =>
    let line ← Trace.rejection level bytes
    return ⟨none, reply.state, asked ++ traceEvents line⟩
  | some base =>
    let line ← Trace.grant level bytes
    return ⟨some ⟨base, bytes⟩, reply.state, asked ++ traceEvents line⟩

/-- Obtain at least `size` bytes in whole units of the provider. -/
def obtain (level : Trace.Level) (size : Nat) (provider : ρ) :
    Checked (Reply (Option Grant) ρ) := do
  let rounded ← Word.roundUp size (Provider.pageSize provider)
  match rounded.filter (· ≤ Word.signedMax) with
  | some bytes => ask level bytes provider
  | none =>
    let line ← Trace.rejection level size
    return ⟨none, provider, traceEvents line⟩

end Source

end RegionHeap.Growth
