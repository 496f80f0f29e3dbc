import Mathlib.Logic.Relation
import RegionHeap.Proofs.Sized.Balance

/-!
# Blocks that are given back are used again

A client that gives its blocks back in the opposite order in which it got them leaks nothing:
what the allocator was granted is in its top and in the cells of the held blocks, but for what
is kept back of the first grant. A request that fails changes neither. Once a block was obtained
and given back, all requests that are not larger are met from the top, and the source is not
asked again, however often blocks are obtained and given back in between.
-/
namespace RegionHeap

open Checked
open Growth (Break Grant Inquiry Provider bytesIn grantsOf)

namespace Request

/-- The request is for a new block and says nothing of its alignment. -/
def simple : Request → Bool
  | allocate _ => true
  | allocateZeroed _ _ => true
  | _ => false

variable {request : Request}

theorem subject?_of_simple (h : request.simple) : request.subject? = none := by
  cases request <;> first | rfl | cases h

theorem releases_of_simple (h : request.simple) : request.releases = false := by
  cases request <;> first | rfl | cases h

theorem wish?_of_simple (h : request.simple) : request.wish? = none := by
  cases request <;> first | rfl | cases h

end Request

namespace Framed

open Sized (Allocator Balanced Block Contract TopRule TopSpace cellsIn regionEnd?)
open Sized.TopSpace (cellLength)

structure Holding where
  user : Nat
  size : Nat
deriving Repr, DecidableEq

namespace Holding

def header (holding : Holding) : Header := ⟨holding.size, Word.minAlign⟩

def block (holding : Holding) : Block := holding.header.block holding.user

end Holding

variable {α ρ : Type} [Allocator α] [Provider ρ]

/-- Every client that a first one can become by simple requests, by giving back the newest of
its blocks and by writes, with the requests to the source and with the blocks that it holds,
the newest first. -/
inductive Nested (first : Client (Framed α ρ)) :
    List (Inquiry ρ) → List Holding → Client (Framed α ρ) → Prop
  | start : Nested first [] [] first
  | serve {log : List (Inquiry ρ)} {held : List Holding} {client : Client (Framed α ρ)}
      {request : Request} {reply : Reply (Option Nat) (Client (Framed α ρ))} :
      Nested first log held client → request.simple → client.serve request = .ok reply →
      Nested first (log ++ client.heap.inquiries request)
        ((reply.answer.map (⟨·, request.size⟩)).toList ++ held) reply.state
  | release {log : List (Inquiry ρ)} {newest : Holding} {held : List Holding}
      {client : Client (Framed α ρ)} {reply : Reply (Option Nat) (Client (Framed α ρ))} :
      Nested first log (newest :: held) client →
      client.serve (.release (some newest.user)) = .ok reply →
      Nested first (log ++ client.heap.inquiries (.release (some newest.user))) held reply.state
  | write {log : List (Inquiry ρ)} {held : List Holding} {client next : Client (Framed α ρ)}
      {block offset len : Nat} {f : Nat → UInt8} :
      Nested first log held client → client.update block offset len f = .ok next →
      Nested first log held next

section standing

variable (Sound : α → ρ → Memory → Prop) (Fit : ρ → Prop) (room : α → Nat)
  (Stack : α → Option Nat → List Block → Prop) (stop : ρ → Nat)

/-- The heap is intact, its headers are those of the held blocks, and its allocator has
what was granted. -/
structure Standing (log : List (Inquiry ρ)) (held : List Holding) (client : Client (Framed α ρ)) :
    Prop where
  intact : ∃ register : Register, client.heap.Intact Sound Fit register ∧
    register.Sizes client.held ∧
    Record.Lists register (held.map fun holding => (holding.user, holding.header))
  balanced : Balanced room Stack stop (grantsOf log) (held.map Holding.block)
    client.heap.allocator client.heap.provider

end standing

variable {Sound : α → ρ → Memory → Prop} {Fit : ρ → Prop} {room : α → Nat} {limit unit : Nat}
  {Given : Grant → Prop} {Stack : α → Option Nat → List Block → Prop} {stop : ρ → Nat}
  {watcher : Option Observer} {heap : Framed α ρ} {register : Register} {request : Request}
  {grants : List Grant} {blocks : List Block} {log : List (Inquiry ρ)} {held : List Holding}
  {client next : Client (Framed α ρ)}

section simple

omit [Allocator α] [Provider ρ]

theorem Register.headerFor_of_simple (h : request.simple) :
    register.headerFor request = ⟨request.size, Word.minAlign⟩ := by
  rw [headerFor, alignFor_of_new (Request.subject?_of_simple h), Request.wish?_of_simple h]
  rfl

theorem Call.opened_of_simple (m : Memory) (h : request.simple) :
    Call.opened m request =
      if request.size + Word.minAlign < Word.bound then
        .entering (.acquire request.zeroes ⟨request.size, Word.minAlign⟩
          (request.size + Word.minAlign))
      else .answered none := by
  have hopened := Call.opened_of_new ∅ m (Request.subject?_of_simple h)
    (Request.releases_of_simple h)
  have hheader : (∅ : Register).headerFor request = _ := Register.headerFor_of_simple h
  have halign : (∅ : Register).alignFor request = Word.minAlign := congrArg Header.align hheader
  rwa [halign, hheader] at hopened

theorem Register.after_of_simple (h : request.simple) (answer : Option Nat) :
    register.after request answer =
      match answer with
      | none => register
      | some user => register.insert user ⟨request.size, Word.minAlign⟩ := by
  have hkeeps := Request.releases_of_simple h
  cases answer with
  | none => exact Register.after_refused hkeeps
  | some user =>
    rw [after, Request.ended?_some hkeeps, Request.subject?_of_simple h,
      Register.headerFor_of_simple h]
    rfl

end simple

theorem serve_of_not_word (h : request.simple)
    (hword : ¬request.size + Word.minAlign < Word.bound) :
    heap.serve request = .ok ⟨none, heap, []⟩ ∧ heap.inquiries request = [] := by
  have hopened := (Call.opened_of_simple heap.memory h).trans (if_neg hword)
  exact ⟨serve_of_answered hopened, by rw [inquiries, hopened]⟩

theorem inquiries_release (user : Nat) : heap.inquiries (.release (some user)) = [] := rfl

theorem inquiries_of_simple (h : request.simple)
    (hword : request.size + Word.minAlign < Word.bound) :
    heap.inquiries request =
      (Allocator.acquire request.zeroes (request.size + Word.minAlign) Word.minAlign
        heap.allocator heap.memory).inquiries heap.level heap.provider := by
  rw [inquiries, (Call.opened_of_simple heap.memory h).trans (if_pos hword)]
  rfl

theorem serve_simple_eq (h : request.simple)
    (hword : request.size + Word.minAlign < Word.bound) :
    heap.serve request = (do
      let reply ← (Allocator.acquire request.zeroes (request.size + Word.minAlign) Word.minAlign
        heap.allocator heap.memory).run heap.level heap.provider
      return heap.settled ⟨request.size, Word.minAlign⟩ reply) :=
  serve_of_placed ((Call.opened_of_simple heap.memory h).trans (if_pos hword)) rfl

theorem serve_simple (contract : Contract Sound) (rule : TopRule room limit Given Stack)
    (contiguous : Provider.Contiguous unit stop watcher Given Fit)
    (intact : heap.Intact Sound Fit register)
    (balanced : Balanced room Stack stop grants blocks heap.allocator heap.provider)
    (hsimple : request.simple) (hword : request.size + Word.minAlign < Word.bound) :
    ∃ reply : Reply (Outcome α) ρ,
      heap.serve request = .ok (heap.settled ⟨request.size, Word.minAlign⟩ reply) ∧
      Served Sound Fit heap register request
        (heap.settled ⟨request.size, Word.minAlign⟩ reply) ∧
      Balanced room Stack stop (grants ++ grantsOf (heap.inquiries request))
        ((reply.answer.base.map (⟨·, request.size + Word.minAlign, Word.minAlign⟩)).toList ++
          blocks) reply.answer.state reply.state ∧
      (reply.answer.base = none →
        reply.answer.state = heap.allocator ∧ grantsOf (heap.inquiries request) = []) ∧
      (reply.answer.base ≠ none → request.size + Word.minAlign < limit) := by
  have hnew := Request.subject?_of_simple hsimple
  have hkeeps := Request.releases_of_simple hsimple
  have hheader : register.headerFor request = _ := Register.headerFor_of_simple hsimple
  have halign : register.alignFor request = Word.minAlign := congrArg Header.align hheader
  obtain ⟨hasks, hruns⟩ := contract.acquire request.zeroes intact.sound hword
    (show Word.isPowerOfTwo Word.minAlign by decide)
  obtain ⟨reply, hrun, hfit, hbalanced, hrefused, hmet⟩ :=
    balanced.acquire rule contiguous intact.fit rfl hasks heap.level
  obtain ⟨acquired, hsound⟩ := hruns hrun
  rw [← inquiries_of_simple hsimple hword] at hbalanced hrefused
  have hserved := intact.acquired contract hsound hfit hnew hkeeps (halign ▸ hword)
    (halign ▸ acquired)
  rw [hheader] at hserved
  have hserve : heap.serve request = _ := serve_simple_eq hsimple hword
  rw [hrun] at hserve
  exact ⟨reply, hserve, hserved, hbalanced, hrefused, hmet⟩

theorem serve_client_of_simple {inner : Reply (Option Nat) (Framed α ρ)} (h : request.simple)
    (hserve : client.heap.serve request = .ok inner) :
    client.serve request = .ok ⟨inner.answer,
      ⟨inner.state, Client.recordAfter client.held request inner.answer⟩, inner.events⟩ := by
  refine Client.serve_eq_ok.mpr ⟨?_, inner, hserve, rfl⟩
  rw [Request.subject?_of_simple h]
  exact nofun

namespace Standing

theorem start {start : Framed α ρ} (contract : Contract Sound)
    (rule : TopRule room limit Given Stack) (fresh : start.Fresh Sound Fit) :
    Standing Sound Fit room Stack stop [] [] ⟨start, ∅⟩ where
  intact := ⟨∅, fresh.intact contract, fun _ => rfl, Record.Lists.nil⟩
  balanced := by
    have hempty : Balanced room Stack stop [] [] Allocator.empty start.provider := .empty rule _
    rwa [← fresh.allocator] at hempty

section steps

variable (contract : Contract Sound) (rule : TopRule room limit Given Stack)
  (contiguous : Provider.Contiguous unit stop watcher Given Fit)
  (h : Standing Sound Fit room Stack stop log held client)

include contract rule contiguous h

/-- A simple request is answered, and all stands as before with the block that was given. If
none was given, nothing was granted and the allocator is as it was. -/
theorem serve (hsimple : request.simple) :
    ∃ reply, client.serve request = .ok reply ∧
      Standing Sound Fit room Stack stop (log ++ client.heap.inquiries request)
        ((reply.answer.map (⟨·, request.size⟩)).toList ++ held) reply.state ∧
      (reply.answer = none → reply.state.heap.allocator = client.heap.allocator ∧
        grantsOf (client.heap.inquiries request) = []) ∧
      (reply.answer ≠ none → request.size + Word.minAlign < Word.bound ∧
        request.size + Word.minAlign < limit) := by
  obtain ⟨register, intact, sizes, lists⟩ := h.intact
  by_cases hword : request.size + Word.minAlign < Word.bound
  · obtain ⟨reply, hserve, hserved, hbalanced, hrefused, hmet⟩ :=
      serve_simple contract rule contiguous intact h.balanced hsimple hword
    have hclient := serve_client_of_simple hsimple hserve
    have hafter := hserved.intact
    have hsizes := sizes.after (hserved.met sizes).silent
    rw [Register.after_of_simple hsimple] at hafter hsizes
    obtain ⟨⟨base, s', m'⟩, provider, events⟩ := reply
    cases base with
    | none =>
      refine ⟨_, hclient, ⟨⟨register, hafter, hsizes, lists⟩, ?_⟩, fun _ => hrefused rfl,
        fun hsome => absurd rfl hsome⟩
      rw [Growth.grantsOf_append]
      exact hbalanced
    | some base =>
      -- A new block is at an address that no header on record has, so nothing is lost by it.
      have hfresh : register[base + Word.minAlign]? = none := by
        have hnone := ((hserved.met sizes).fresh rfl).resolve_right
          (by rw [Request.subject?_of_simple hsimple]; exact nofun)
        rwa [sizes, Option.map_eq_none_iff] at hnone
      refine ⟨_, hclient, ⟨⟨_, hafter, hsizes, lists.insert hfresh⟩, ?_⟩, nofun,
        fun _ => ⟨hword, hmet nofun⟩⟩
      have hblock : Holding.block ⟨base + Word.minAlign, request.size⟩ =
          ⟨base, request.size + Word.minAlign, Word.minAlign⟩ := Header.block_add _ base
      rw [Growth.grantsOf_append]
      change Balanced _ _ _ _ (Holding.block _ :: _) _ _
      rw [hblock]
      exact hbalanced
  · obtain ⟨hserve, hnone⟩ : client.heap.serve request = .ok ⟨none, client.heap, []⟩ ∧
        client.heap.inquiries request = [] := serve_of_not_word hsimple hword
    rw [hnone, List.append_nil]
    refine ⟨_, serve_client_of_simple hsimple hserve, ⟨⟨register, intact, ?_, lists⟩, h.balanced⟩,
      fun _ => ⟨rfl, rfl⟩, fun hsome => absurd rfl hsome⟩
    have hsizes : (register.after request none).Sizes
        (Client.recordAfter client.held request none) := sizes.after fun _ => rfl
    rwa [Register.after_of_simple hsimple] at hsizes

end steps

theorem release (contract : Contract Sound) (rule : TopRule room limit Given Stack)
    {newest : Holding} (h : Standing Sound Fit room Stack stop log (newest :: held) client) :
    ∃ reply, client.serve (.release (some newest.user)) = .ok reply ∧
      Standing Sound Fit room Stack stop log held reply.state ∧
      room reply.state.heap.allocator =
        room client.heap.allocator + cellLength (newest.size + Word.minAlign) ∧
      reply.state.heap.provider = client.heap.provider := by
  obtain ⟨register, intact, sizes, lists⟩ := h.intact
  have hold : register[newest.user]? = some newest.header := lists.head
  have entry := intact.entry hold
  obtain ⟨s', m', hrelease, hex, hsound⟩ := contract.release intact.sound entry.live
  obtain ⟨s'', m'', hgiven, hroom, hstack⟩ := rule.releases client.heap.memory h.balanced.stack
  obtain ⟨rfl, rfl⟩ := Prod.mk.inj (Except.ok.inj (hrelease.symm.trans hgiven))
  have hopened : Call.opened client.heap.memory (.release (some newest.user)) =
      .entering (.release newest.user newest.header) := by
    rw [← entry.read, Call.opened]
  have hserve := serve_of_release hopened entry.blockOf_eq_ok hrelease
  have hserved := intact.released hold hex hsound
  have hheld : newest.user ∈ client.held := by
    refine Record.mem_iff.mpr ⟨newest.size, ?_⟩
    rw [sizes, hold]
    rfl
  refine ⟨_, Client.serve_eq_ok.mpr ⟨?_, _, hserve, rfl⟩, ⟨⟨_, hserved.intact, ?_, lists.erase⟩,
    h.balanced.released hroom hstack⟩, hroom, rfl⟩
  · intro user huser
    obtain rfl := Option.some.inj huser
    exact hheld
  · exact sizes.after (hserved.met sizes).silent

theorem write (contract : Contract Sound)
    (h : Standing Sound Fit room Stack stop log held client) {block offset len : Nat}
    {f : Nat → UInt8} (hwrite : client.update block offset len f = .ok next) :
    Standing Sound Fit room Stack stop log held next ∧
      next.heap.allocator = client.heap.allocator ∧
      next.heap.provider = client.heap.provider := by
  obtain ⟨register, intact, sizes, lists⟩ := h.intact
  have hnext := intact.update contract sizes hwrite
  obtain ⟨-, rfl⟩ := Client.update_eq_ok.mp hwrite
  exact ⟨⟨⟨register, hnext, sizes, lists⟩, h.balanced⟩, rfl, rfl⟩

end Standing

/-- All stands after every run in which blocks are given back in the opposite order. -/
theorem Nested.standing {start : Framed α ρ} (contract : Contract Sound)
    (rule : TopRule room limit Given Stack)
    (contiguous : Provider.Contiguous unit stop watcher Given Fit)
    (fresh : start.Fresh Sound Fit) (h : Nested ⟨start, ∅⟩ log held client) :
    Standing Sound Fit room Stack stop log held client := by
  induction h with
  | start => exact .start contract rule fresh
  | serve _ hsimple hserve ih =>
    obtain ⟨reply, hreply, hnext, -⟩ := ih.serve contract rule contiguous hsimple
    obtain rfl := Except.ok.inj (hserve.symm.trans hreply)
    exact hnext
  | release _ hserve ih =>
    obtain ⟨reply, hreply, hnext, -⟩ := ih.release contract rule
    obtain rfl := Except.ok.inj (hserve.symm.trans hreply)
    rw [inquiries_release, List.append_nil]
    exact hnext
  | write _ hwrite ih => exact (ih.write contract hwrite).1

section pairs

/-- The client writes into one of its blocks. -/
def Writes (client next : Client (Framed α ρ)) : Prop :=
  ∃ block offset len f, client.update block offset len f = .ok next

inductive Pair (request : Request) (client : Client (Framed α ρ)) : Client (Framed α ρ) → Prop
  | mk {reply released : Reply (Option Nat) (Client (Framed α ρ))} {user : Nat}
      {written : Client (Framed α ρ)} :
      client.serve request = .ok reply → reply.answer = some user →
      Relation.ReflTransGen Writes reply.state written →
      written.serve (.release (some user)) = .ok released → Pair request client released.state

/-- A block of at most `size` bytes is obtained and given back. -/
def PairUpTo (size : Nat) (client next : Client (Framed α ρ)) : Prop :=
  ∃ request : Request, request.simple ∧ request.size ≤ size ∧ Pair request client next

structure Ready (room : α → Nat) (limit size : Nat) (client : Client (Framed α ρ)) : Prop where
  word : size + Word.minAlign < Word.bound
  limit : size + Word.minAlign < limit
  room : cellLength (size + Word.minAlign) < room client.heap.allocator

theorem Standing.writes (contract : Contract Sound)
    (h : Standing Sound Fit room Stack stop log held client)
    (hwrites : Relation.ReflTransGen Writes client next) :
    Standing Sound Fit room Stack stop log held next ∧
      next.heap.allocator = client.heap.allocator ∧
      next.heap.provider = client.heap.provider := by
  induction hwrites with
  | refl => exact ⟨h, rfl, rfl⟩
  | tail _ hwrite ih =>
    obtain ⟨hstands, hallocator, hprovider⟩ := ih
    obtain ⟨block, offset, len, f, hwrite⟩ := hwrite
    obtain ⟨hnext, hsame, hbehind⟩ := hstands.write contract hwrite
    exact ⟨hnext, hsame.trans hallocator, hbehind.trans hprovider⟩

theorem Standing.serve_of_ready (rule : TopRule room limit Given Stack) {size : Nat}
    (h : Standing Sound Fit room Stack stop log held client) (ready : Ready room limit size client)
    (hsimple : request.simple) (hsize : request.size ≤ size) :
    ∃ reply user, client.serve request = .ok reply ∧ reply.answer = some user ∧
      client.heap.inquiries request = [] ∧ reply.events = [] ∧
      reply.state.heap.provider = client.heap.provider ∧
      room reply.state.heap.allocator + cellLength (request.size + Word.minAlign) =
        room client.heap.allocator := by
  have htotal : request.size + Word.minAlign ≤ size + Word.minAlign := Nat.add_le_add_right hsize _
  have hword := Nat.lt_of_le_of_lt htotal ready.word
  have hroom := Nat.lt_of_le_of_lt (Sized.TopSpace.cellLength_mono htotal) ready.room
  obtain ⟨base, s', m', hacquire, hcut, -⟩ := rule.takes request.zeroes client.heap.memory
    h.balanced.stack (Nat.lt_of_le_of_lt htotal ready.limit) hroom
  have hinquiries : client.heap.inquiries request = _ := inquiries_of_simple hsimple hword
  rw [hacquire] at hinquiries
  have hserve : client.heap.serve request = _ := serve_simple_eq hsimple hword
  rw [hacquire] at hserve
  exact ⟨_, _, serve_client_of_simple hsimple hserve, rfl, hinquiries, rfl, rfl, hcut⟩

theorem Standing.pair (contract : Contract Sound) (rule : TopRule room limit Given Stack)
    (contiguous : Provider.Contiguous unit stop watcher Given Fit)
    (h : Standing Sound Fit room Stack stop log held client) (hsimple : request.simple)
    (hpair : Pair request client next) :
    ∃ reply, client.serve request = .ok reply ∧ reply.answer ≠ none ∧
      Standing Sound Fit room Stack stop (log ++ client.heap.inquiries request) held next ∧
      0 < room reply.state.heap.allocator ∧
      room next.heap.allocator = room reply.state.heap.allocator +
        cellLength (request.size + Word.minAlign) ∧
      next.heap.provider = reply.state.heap.provider := by
  obtain ⟨hserve, hanswer, hwrites, hrelease⟩ := hpair
  rename_i reply released user written
  obtain ⟨same, hsame, hstands, -⟩ := h.serve contract rule contiguous hsimple
  obtain rfl := Except.ok.inj (hserve.symm.trans hsame)
  rw [hanswer] at hstands
  have hpositive := hstands.balanced.positive hstands.balanced.granted_of_block
  obtain ⟨hwritten, hallocator, hprovider⟩ := hstands.writes contract hwrites
  obtain ⟨last, hlast, hreleased, hroom, hbehind⟩ := hwritten.release contract rule
  obtain rfl := Except.ok.inj (hrelease.symm.trans hlast)
  rw [hallocator] at hroom
  exact ⟨reply, hserve, by rw [hanswer]; exact nofun, hreleased, hpositive, hroom,
    hbehind.trans hprovider⟩

/-- A pair that the top has room for leaves the provider alone and the top as long as it was. -/
theorem Standing.pair_of_ready (contract : Contract Sound) (rule : TopRule room limit Given Stack)
    (contiguous : Provider.Contiguous unit stop watcher Given Fit) {size : Nat}
    (h : Standing Sound Fit room Stack stop log held client) (ready : Ready room limit size client)
    (hpair : PairUpTo size client next) :
    Standing Sound Fit room Stack stop log held next ∧ Ready room limit size next ∧
      next.heap.provider = client.heap.provider := by
  obtain ⟨request, hsimple, hsize, hpair⟩ := hpair
  obtain ⟨reply, hserve, -, hstands, -, hroom, hprovider⟩ :=
    h.pair contract rule contiguous hsimple hpair
  obtain ⟨same, user, hsame, -, hinquiries, -, hbehind, hcut⟩ :=
    h.serve_of_ready rule ready hsimple hsize
  obtain rfl := Except.ok.inj (hserve.symm.trans hsame)
  rw [hinquiries, List.append_nil] at hstands
  exact ⟨hstands, ⟨ready.word, ready.limit, by rw [hroom, hcut]; exact ready.room⟩,
    hprovider.trans hbehind⟩

theorem Standing.pairs_of_ready (contract : Contract Sound)
    (rule : TopRule room limit Given Stack)
    (contiguous : Provider.Contiguous unit stop watcher Given Fit) {size : Nat}
    (h : Standing Sound Fit room Stack stop log held client) (ready : Ready room limit size client)
    (hpairs : Relation.ReflTransGen (PairUpTo size) client next) :
    Standing Sound Fit room Stack stop log held next ∧ Ready room limit size next ∧
      next.heap.provider = client.heap.provider := by
  induction hpairs with
  | refl => exact ⟨h, ready, rfl⟩
  | tail _ hpair ih =>
    obtain ⟨hstands, hready, hprovider⟩ := ih
    obtain ⟨hnext, hagain, hbehind⟩ := hstands.pair_of_ready contract rule contiguous hready hpair
    exact ⟨hnext, hagain, hbehind.trans hprovider⟩

theorem Standing.ready_of_pair (contract : Contract Sound) (rule : TopRule room limit Given Stack)
    (contiguous : Provider.Contiguous unit stop watcher Given Fit)
    (h : Standing Sound Fit room Stack stop log held client) (hsimple : request.simple)
    (hpair : Pair request client next) :
    Standing Sound Fit room Stack stop (log ++ client.heap.inquiries request) held next ∧
      Ready room limit request.size next := by
  obtain ⟨reply, hserve, hanswer, hstands, hpositive, hroom, -⟩ :=
    h.pair contract rule contiguous hsimple hpair
  obtain ⟨same, hsame, -, -, hmet⟩ := h.serve contract rule contiguous hsimple
  obtain rfl := Except.ok.inj (hserve.symm.trans hsame)
  obtain ⟨hword, hlimit⟩ := hmet hanswer
  -- The cell comes back to a top of which something was left, so the sum is more than the cell.
  exact ⟨hstands, hword, hlimit, by omega⟩

/-- A heap whose allocator follows the rule of the top, over a contiguous provider, leaks nothing
if blocks are given back in the opposite order. From the first grant on the top and the cells of
the held blocks make up what was granted but for eighty bytes, and the top is never used up.
Every simple request is answered, and one that fails changes neither; giving back the newest
block gives its cell to the top. Once a block was obtained and given back, every request that is
not larger is met without asking the source, however many such pairs come before it. -/
theorem reuse_of_run {start : Framed α ρ} (contract : Contract Sound)
    (rule : TopRule room limit Given Stack)
    (contiguous : Provider.Contiguous unit stop watcher Given Fit)
    (fresh : start.Fresh Sound Fit) (hrun : Nested ⟨start, ∅⟩ log held client) :
    (grantsOf log ≠ [] →
      room client.heap.allocator + cellsIn (held.map Holding.block) + 80 =
        bytesIn (grantsOf log) ∧ 0 < room client.heap.allocator) ∧
    (∀ {request : Request}, request.simple →
      ∃ reply, client.serve request = .ok reply ∧ (reply.answer = none →
        room reply.state.heap.allocator = room client.heap.allocator ∧
          grantsOf (client.heap.inquiries request) = [])) ∧
    (∀ {newest older}, held = newest :: older →
      ∃ reply, client.serve (.release (some newest.user)) = .ok reply ∧
        room reply.state.heap.allocator =
          room client.heap.allocator + cellLength (newest.size + Word.minAlign)) ∧
    ∀ {first : Request} {after again}, first.simple → Pair first client after →
      Relation.ReflTransGen (PairUpTo first.size) after again →
      ∀ {request : Request}, request.simple → request.size ≤ first.size →
        ∃ reply user, again.serve request = .ok reply ∧ reply.answer = some user ∧
          again.heap.inquiries request = [] ∧ reply.events = [] ∧
          reply.state.heap.provider = after.heap.provider := by
  have hstands := hrun.standing contract rule contiguous fresh
  refine ⟨fun hgrants => ?_, ?_, ?_, ?_⟩
  · have hbalance := hstands.balanced.balance
    rw [if_neg hgrants] at hbalance
    exact ⟨hbalance, hstands.balanced.positive hgrants⟩
  · intro request hsimple
    obtain ⟨reply, hserve, -, hrefused, -⟩ := hstands.serve contract rule contiguous hsimple
    refine ⟨reply, hserve, fun hnone => ?_⟩
    obtain ⟨hallocator, hgrants⟩ := hrefused hnone
    exact ⟨congrArg room hallocator, hgrants⟩
  · rintro newest older rfl
    obtain ⟨reply, hserve, -, hroom, -⟩ := hstands.release contract rule
    exact ⟨reply, hserve, hroom⟩
  · intro first after again hfirst hpair hpairs request hsimple hsize
    obtain ⟨hafter, hready⟩ := hstands.ready_of_pair contract rule contiguous hfirst hpair
    obtain ⟨hagain, hready, hprovider⟩ :=
      hafter.pairs_of_ready contract rule contiguous hready hpairs
    obtain ⟨reply, user, hserve, hanswer, hinquiries, hevents, hbehind, -⟩ :=
      hagain.serve_of_ready rule hready hsimple hsize
    exact ⟨reply, user, hserve, hanswer, hinquiries, hevents, hbehind.trans hprovider⟩

end pairs

theorem onBreak_paced : onBreak.Fresh (TopSpace.Sound Break) (Break.Paced 4096) :=
  ⟨rfl, TopSpace.tidy_empty, by decide, by decide, by decide⟩

/-- A process obtains 3000 bytes and gives them back. Of the first grant all but eighty bytes
are then in the top, and thirty elements of a hundred bytes are met without another one. -/
theorem reuse_of_run_break : ∃ log client, Nested ⟨onBreak, ∅⟩ log [] client ∧
    grantsOf log = [⟨0x10000000000, 65536⟩] ∧
    client.heap.allocator.room = 65456 ∧
    ∃ reply user, client.serve (.allocateZeroed 30 100) = .ok reply ∧ reply.answer = some user ∧
      client.heap.inquiries (.allocateZeroed 30 100) = [] ∧
      reply.state.heap.provider = client.heap.provider := by
  have contiguous : Provider.Contiguous 4096 Break.top none TopSpace.Suits (Break.Paced 4096) :=
    Break.contiguous (by decide) (by decide) (by decide)
  have contract : Contract (TopSpace.Sound Break) := TopSpace.meets_contract
  have hstart : Nested (⟨onBreak, ∅⟩ : Client (Framed TopSpace Break)) [] [] ⟨onBreak, ∅⟩ := .start
  obtain ⟨-, hserves, -, hreuse⟩ :=
    reuse_of_run contract TopSpace.topRule contiguous onBreak_paced hstart
  obtain ⟨reply, hreply, -⟩ := hserves (show (Request.allocate 3000).simple by decide)
  have hanswer : reply.answer = some 0x10000000020 := by
    have hcomputed : ((Client.mk onBreak ∅).serve (.allocate 3000)).toOption.bind
        Reply.answer = some 0x10000000020 := by decide +kernel
    rwa [hreply] at hcomputed
  have hobtained := hstart.serve (show (Request.allocate 3000).simple by decide) hreply
  rw [hanswer] at hobtained
  obtain ⟨-, -, hreleases, -⟩ :=
    reuse_of_run contract TopSpace.topRule contiguous onBreak_paced hobtained
  obtain ⟨released, hreleased, -⟩ := hreleases rfl
  have hrun := hobtained.release hreleased
  have hgrants : grantsOf (onBreak.inquiries (.allocate 3000)) = [⟨0x10000000000, 65536⟩] := by
    decide +kernel
  have hlog : grantsOf ([] ++ onBreak.inquiries (.allocate 3000) ++
      reply.state.heap.inquiries (.release (some 0x10000000020))) = [⟨0x10000000000, 65536⟩] := by
    rw [inquiries_release, List.append_nil, List.nil_append]
    exact hgrants
  obtain ⟨hbalance, -⟩ :=
    reuse_of_run contract TopSpace.topRule contiguous onBreak_paced hrun
  obtain ⟨hroom, -⟩ := hbalance (hlog ▸ nofun)
  rw [hlog] at hroom
  have hpair : Pair (.allocate 3000) ⟨onBreak, ∅⟩ released.state :=
    .mk hreply hanswer .refl hreleased
  obtain ⟨again, user, hserve, hmet, hinquiries, -, hprovider⟩ :=
    hreuse (by decide) hpair .refl (show (Request.allocateZeroed 30 100).simple by decide)
      (by decide)
  exact ⟨_, released.state, hrun, hlog, Nat.add_right_cancel hroom, again, user, hserve, hmet,
    hinquiries, hprovider⟩

end Framed

end RegionHeap
