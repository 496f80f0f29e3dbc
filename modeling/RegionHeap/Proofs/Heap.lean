import RegionHeap.Proofs.Client

/-!
# The contract of a heap

What a user may rely on, whichever heap it is. A request is refused, or it is
met: a new block has an address of its own, the bytes of zeroed elements are
zero, a resized block keeps what both sizes have room for, and an alignment
that is a power of two is honored. Until a block is given back, or has moved,
its bytes are its holder's. A heap may be in states in which it keeps no
promise, so the contract names those that fit a record of held blocks.
-/
namespace RegionHeap

namespace Request

/-- The alignment that the request asks for, if it asks for one. -/
def wish? : Request → Option Nat
  | allocateAligned align _ => some align
  | allocateZeroedAligned align _ _ => some align
  | _ => none

/-- The request is for so many bytes and nothing else. -/
def plain : Request → Bool
  | allocate _ => true
  | resize _ _ => true
  | _ => false

/-- What the answer to a request means for blocks of the sizes in `held`, when
the memory was `m` before and is `m'` after. -/
structure Met (request : Request) (held : Std.TreeMap Nat Nat) (m : Memory)
    (answer : Option Nat) (m' : Memory) : Prop where
  kept : ∀ {block size}, held[block]? = some size → request.ended? answer ≠ some block →
    ∀ {i}, i < size → m'.byte (block + i) = m.byte (block + i)
  fresh : ∀ {block}, answer = some block → held[block]? = none ∨ request.subject? = some block
  silent : request.releases → answer = none
  /-- Zeroed elements are obtained only if their number of bytes is a word. -/
  zeroed : request.zeroes → ∀ {block}, answer = some block → request.size < Word.bound ∧
    ∀ {i}, i < request.size → m'.byte (block + i) = 0
  resized : ∀ {old size block}, request = .resize (some old) size → answer = some block →
    ∀ {oldSize}, held[old]? = some oldSize →
    ∀ {i}, i < min oldSize size → m'.byte (block + i) = m.byte (old + i)
  aligned : ∀ {align block}, request.wish? = some align → Word.isPowerOfTwo align →
    answer = some block → block % align = 0

end Request

namespace Heap
variable {σ : Type} [Heap σ]

/-- The contract of a heap, in the states that fit a record of held blocks and their sizes. -/
structure Contract (Fits : σ → Std.TreeMap Nat Nat → Prop) : Prop where
  /-- A request about nothing or about a held block is answered. -/
  serve : ∀ {heap held} {request : Request}, Fits heap held → request.Words →
    (∀ block ∈ request.subject?, block ∈ held) →
    ∃ reply, Heap.serve request heap = .ok reply ∧
      request.Met held (memory heap) reply.answer (memory reply.state) ∧
      Fits reply.state (Client.recordAfter held request reply.answer)
  /-- No byte belongs to two held blocks. -/
  apart : ∀ {heap held}, Fits heap held → ∀ {a b sizeA sizeB : Nat}, held[a]? = some sizeA →
    held[b]? = some sizeB → a ≠ b → ∀ {i j : Nat}, i < sizeA → j < sizeB → a + i ≠ b + j
  memory_withMemory : ∀ {heap : σ} {m}, memory (withMemory m heap) = m
  /-- Users may write into the blocks that they hold. -/
  write : ∀ {heap held m}, Fits heap held →
    (∀ address, (∀ block size, held[block]? = some size →
      ¬(block ≤ address ∧ address < block + size)) → m.byte address = (memory heap).byte address) →
    Fits (withMemory m heap) held

/-- Blocks that are obtained by their size alone have the smallest alignment, and so have
those that were resized. -/
def Granular (Fits : σ → Std.TreeMap Nat Nat → Prop) : Prop :=
  ∀ {heap held} {request : Request} {reply block}, Fits heap held → request.Words →
    (∀ block ∈ request.subject?, block ∈ held) → request.plain →
    Heap.serve request heap = .ok reply → reply.answer = some block → block % Word.minAlign = 0

end Heap

namespace Client
variable {σ : Type} [Heap σ] {Fits : σ → Std.TreeMap Nat Nat → Prop} {client : Client σ}
  {next : Client σ} {request : Request} {reply : Reply (Option Nat) (Client σ)}

/-- A client of such a heap is never told that it did wrong as long as it asks
about what it holds. -/
theorem serve_returns (contract : Heap.Contract Fits) (hfits : Fits client.heap client.held)
    (hwords : request.Words) (hheld : ∀ block ∈ request.subject?, block ∈ client.held) :
    ∃ reply, client.serve request = .ok reply := by
  obtain ⟨inner, hinner, _⟩ := contract.serve hfits hwords hheld
  exact ⟨_, serve_eq_ok.mpr ⟨hheld, inner, hinner, rfl⟩⟩

theorem serve_met (contract : Heap.Contract Fits) (hfits : Fits client.heap client.held)
    (hwords : request.Words) (h : client.serve request = .ok reply) :
    request.Met client.held (Heap.memory client.heap) reply.answer
        (Heap.memory reply.state.heap) ∧
      Fits reply.state.heap reply.state.held ∧
      reply.state.held = recordAfter client.held request reply.answer := by
  obtain ⟨hheld, inner, hinner, rfl⟩ := serve_eq_ok.mp h
  obtain ⟨same, hsame, hmet, hfitsAfter⟩ := contract.serve hfits hwords hheld
  obtain rfl : inner = same := Except.ok.inj (hinner.symm.trans hsame)
  exact ⟨hmet, hfitsAfter, rfl⟩

theorem byte_of_update (contract : Heap.Contract Fits) {block offset len : Nat}
    {f : Nat → UInt8} (h : client.update block offset len f = .ok next) (address : Nat) :
    (Heap.memory next.heap).byte address =
      if block + offset ≤ address ∧ address < block + offset + len then f address
      else (Heap.memory client.heap).byte address := by
  obtain ⟨-, rfl⟩ := update_eq_ok.mp h
  rw [withMemory, contract.memory_withMemory, Memory.byte_update]

theorem held_of_update {block offset len : Nat} {f : Nat → UInt8}
    (h : client.update block offset len f = .ok next) : next.held = client.held := by
  obtain ⟨-, rfl⟩ := update_eq_ok.mp h
  rfl

/-- An update is inside of what is held. -/
theorem eq_withMemory_of_update {block offset len : Nat} {f : Nat → UInt8}
    (h : client.update block offset len f = .ok next) :
    ∃ m, next = client.withMemory m ∧ ∀ address,
      (∀ block size, client.held[block]? = some size →
        ¬(block ≤ address ∧ address < block + size)) →
      m.byte address = (Heap.memory client.heap).byte address := by
  obtain ⟨hcovers, rfl⟩ := update_eq_ok.mp h
  refine ⟨_, rfl, fun address hfree => ?_⟩
  refine (Memory.byte_update ..).trans (if_neg fun ⟨hstart, hstop⟩ => ?_)
  rcases covers_iff.mp hcovers with hnone | ⟨size, hsize, hinside⟩
  · omega
  · exact hfree block size hsize ⟨by omega, by omega⟩

theorem fits_update (contract : Heap.Contract Fits) (hfits : Fits client.heap client.held)
    {block offset len : Nat} {f : Nat → UInt8} (h : client.update block offset len f = .ok next) :
    Fits next.heap next.held := by
  obtain ⟨m, rfl, hbytes⟩ := eq_withMemory_of_update h
  exact contract.write hfits hbytes

end Client

end RegionHeap
