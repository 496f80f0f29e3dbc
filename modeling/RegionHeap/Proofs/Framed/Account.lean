import RegionHeap.Proofs.Framed.Runs
import RegionHeap.Proofs.Growth.Account
import RegionHeap.Proofs.Session

/-!
# The books of a framed heap

A framed heap reaches its provider only through the dialogues of its allocator
with the source, at most one for each call. The requests to the source that a
client causes in a whole run are therefore made one after the other, nobody else
comes between them, and everything that happens in the run is what happens in
these requests. With everything reported, the books of the source are the books
of the heap.
-/
namespace RegionHeap

open Checked
open Growth (Account Break BreakSystem Dealings Inquiry Linear PageCounter PageStore Provider
  ReservedPages bytesIn eventsOf grantsOf linearPageSize)

namespace Sized

variable {α ρ : Type}

section dialogues

variable [Provider ρ] {dialogue : Dialogue α} {provider : ρ} {level : Trace.Level}
  {reply : Reply α ρ}

/-- The requests to the source that a dialogue leads to. -/
def Dialogue.inquiries (level : Trace.Level) : Dialogue α → ρ → List (Inquiry ρ)
  | .done _, _ => []
  | .ask bytes next, provider =>
    match Growth.Source.obtain level bytes provider with
    | .ok reply => ⟨bytes, provider, reply⟩ :: (next reply.answer).inquiries level reply.state
    | .error _ => []

theorem Dialogue.dealings (hrun : dialogue.run level provider = .ok reply) :
    Dealings level provider (dialogue.inquiries level provider) reply.state ∧
      reply.events = eventsOf (dialogue.inquiries level provider) := by
  induction dialogue generalizing provider reply with
  | done result =>
    cases hrun
    exact ⟨.nil provider, rfl⟩
  | ask bytes next ih =>
    obtain ⟨first, rest, hfirst, hrest, rfl⟩ := run_ask_eq_ok.mp hrun
    obtain ⟨hdealings, hevents⟩ := ih first.answer hrest
    rw [inquiries, hfirst]
    exact ⟨.cons hfirst hdealings, congrArg (first.events ++ ·) hevents⟩

theorem Dialogue.Asks.inquiries {p : Nat → Prop} (h : dialogue.Asks p) :
    ∀ inquiry ∈ dialogue.inquiries level provider, p inquiry.bytes := by
  induction dialogue generalizing provider with
  | done result => exact List.forall_mem_nil _
  | ask bytes next ih =>
    rw [Dialogue.inquiries]
    split
    · rename_i reply _
      exact List.forall_mem_cons.mpr ⟨h.1, ih reply.answer (h.2 reply.answer)⟩
    · exact List.forall_mem_nil _

end dialogues

/-- Whatever its state, the allocator asks its source only for words that are not zero. -/
structure AsksWords (α : Type) [Allocator α] : Prop where
  acquire : ∀ (cleared : Bool) {total : Nat} (align : Nat) (s : α) (m : Memory),
    total < Word.bound →
    (Allocator.acquire cleared total align s m).Asks fun bytes => 0 < bytes ∧ bytes < Word.bound
  resize : ∀ {block total} {s : α} {m dialogue}, total < Word.bound →
    Allocator.resize block total s m = .ok dialogue →
    dialogue.Asks fun bytes => 0 < bytes ∧ bytes < Word.bound

theorem TopSpace.asks_words : AsksWords TopSpace where
  acquire cleared _ _ _ _ _ := TopSpace.acquire_asks cleared
  resize _ h := TopSpace.resize_asks h

end Sized

namespace Framed

open Sized (Allocator AsksWords Contract Dialogue TopSpace)

variable {α ρ : Type} [Allocator α] [Provider ρ] {heap : Framed α ρ} {request : Request}

namespace Call

/-- The call does not hold the lock. -/
def Outside : Call → Prop
  | entering _ => False
  | _ => True

end Call

/-- The requests to the source that a call makes while it holds the lock. -/
def inquiriesOf (critical : Critical) (heap : Framed α ρ) : List (Inquiry ρ) :=
  match critical with
  | .acquire cleared header total =>
    (Allocator.acquire cleared total header.align heap.allocator heap.memory).inquiries
      heap.level heap.provider
  | .resize user old _ total =>
    match blockOf user old >>= (Allocator.resize · total heap.allocator heap.memory) with
    | .ok dialogue => dialogue.inquiries heap.level heap.provider
    | .error _ => []
  | .release _ _ => []

/-- The requests to the source that serving a request makes. -/
def inquiries (request : Request) (heap : Framed α ρ) : List (Inquiry ρ) :=
  match Call.opened heap.memory request with
  | .entering critical => heap.inquiriesOf critical
  | _ => []

/-- What was done to the heap is what the requests in the log did to its provider. -/
structure Deals {β : Type} (heap : Framed α ρ) (log : List (Inquiry ρ))
    (reply : Reply β (Framed α ρ)) : Prop where
  level : reply.state.level = heap.level
  dealings : Dealings heap.level heap.provider log reply.state.provider
  events : reply.events = eventsOf log

omit [Allocator α] in
theorem deals_place {header : Header} {dialogue : Dialogue (Outcome α)}
    {reply : Reply Call (Framed α ρ)} (h : heap.place header dialogue = .ok reply) :
    heap.Deals (dialogue.inquiries heap.level heap.provider) reply ∧ reply.answer.Outside := by
  obtain ⟨inner, hrun, h⟩ := bind_eq_ok.mp h
  obtain rfl := Except.ok.inj h
  obtain ⟨hdealings, hevents⟩ := Dialogue.dealings hrun
  refine ⟨⟨rfl, hdealings, hevents⟩, ?_⟩
  dsimp only
  split <;> trivial

theorem deals_enter {critical : Critical} {reply : Reply Call (Framed α ρ)}
    (h : heap.enter critical = .ok reply) :
    heap.Deals (heap.inquiriesOf critical) reply ∧ reply.answer.Outside := by
  cases critical with
  | acquire cleared header total => exact deals_place h
  | resize user old size total =>
    obtain ⟨block, hblock, h⟩ := bind_eq_ok.mp h
    obtain ⟨dialogue, hdialogue, h⟩ := bind_eq_ok.mp h
    have hinquiries : heap.inquiriesOf (.resize user old size total) =
        dialogue.inquiries heap.level heap.provider := by
      rw [inquiriesOf, hblock, ok_bind, hdialogue]
    rw [hinquiries]
    exact deals_place h
  | release user header =>
    obtain ⟨block, _, h⟩ := bind_eq_ok.mp h
    obtain ⟨⟨allocator, memory⟩, _, h⟩ := bind_eq_ok.mp h
    obtain rfl := Except.ok.inj h
    exact ⟨⟨rfl, .nil _, rfl⟩, trivial⟩

theorem deals_outside {call : Call} {reply : Reply Call (Framed α ρ)} (hcall : call.Outside)
    (h : heap.step call = .ok reply) :
    reply.state.level = heap.level ∧ reply.state.provider = heap.provider ∧
      reply.events = [] := by
  cases call with
  | entering critical => exact absurd hcall id
  | _ =>
    obtain rfl := Except.ok.inj h
    exact ⟨rfl, rfl, rfl⟩

theorem deals_serve {reply : Reply (Option Nat) (Framed α ρ)}
    (h : heap.serve request = .ok reply) : heap.Deals (heap.inquiries request) reply := by
  rcases Call.opened_cases heap.memory request with hopened | ⟨critical, hopened, -⟩
  · obtain rfl := Except.ok.inj ((serve_of_answered hopened).symm.trans h)
    rw [inquiries, hopened]
    exact ⟨rfl, .nil _, rfl⟩
  · obtain ⟨_, hfirst, h⟩ := bind_eq_ok.mp h
    obtain rfl := Except.ok.inj hfirst
    obtain ⟨placed, hplaced, h⟩ := bind_eq_ok.mp h
    obtain ⟨framed, hframed, h⟩ := bind_eq_ok.mp h
    obtain rfl := Except.ok.inj h
    rw [hopened] at hplaced
    obtain ⟨deals, houtside⟩ := deals_enter hplaced
    obtain ⟨hlevel, hprovider, hevents⟩ := deals_outside houtside hframed
    rw [inquiries, hopened]
    refine ⟨hlevel.trans deals.level, ?_, ?_⟩
    · dsimp only
      rw [hprovider]
      exact deals.dealings
    · dsimp only
      rw [hevents, List.append_nil, List.nil_append, deals.events]

theorem words_inquiries (asks : AsksWords α) :
    ∀ inquiry ∈ heap.inquiries request, 0 < inquiry.bytes ∧ inquiry.bytes < Word.bound := by
  rcases Call.opened_cases heap.memory request with hopened | ⟨critical, hopened, hwords⟩
  · rw [Framed.inquiries, hopened]
    exact List.forall_mem_nil _
  · rw [Framed.inquiries, hopened]
    cases critical with
    | acquire cleared header total =>
      exact (asks.acquire cleared header.align heap.allocator heap.memory hwords).inquiries
    | resize user old size total =>
      dsimp only [inquiriesOf]
      split
      · rename_i dialogue hdialogue
        obtain ⟨block, -, hdialogue⟩ := bind_eq_ok.mp hdialogue
        exact (asks.resize hwords hdialogue).inquiries
      · exact List.forall_mem_nil _
    | release user header => exact List.forall_mem_nil _

/-- Every client that a first one can become by requests and writes, with the requests to
the source and everything that happened on the way. -/
inductive Booked (first : Client (Framed α ρ)) :
    List (Inquiry ρ) → List Event → Client (Framed α ρ) → Prop
  | start : Booked first [] [] first
  | serve {log : List (Inquiry ρ)} {events : List Event} {client : Client (Framed α ρ)}
      {request : Request} {reply : Reply (Option Nat) (Client (Framed α ρ))} :
      Booked first log events client → request.Words → client.serve request = .ok reply →
      Booked first (log ++ client.heap.inquiries request) (events ++ reply.events) reply.state
  | write {log : List (Inquiry ρ)} {events : List Event} {client next : Client (Framed α ρ)}
      {block offset len : Nat} {f : Nat → UInt8} :
      Booked first log events client → client.update block offset len f = .ok next →
      Booked first log events next

namespace Booked

variable {first client : Client (Framed α ρ)} {log : List (Inquiry ρ)} {events : List Event}

theorem run (h : Booked first log events client) : ∃ deeds, Client.Run first deeds client := by
  induction h with
  | start => exact ⟨[], .start⟩
  | serve _ hwords hserve ih =>
    obtain ⟨deeds, hrun⟩ := ih
    exact ⟨_, hrun.serve hwords hserve⟩
  | write _ hwrite ih =>
    obtain ⟨deeds, hrun⟩ := ih
    exact ⟨_, hrun.write hwrite⟩

/-- The requests of a run follow each other, and nothing else happens. -/
theorem deals (h : Booked first log events client) :
    first.heap.Deals log ⟨(), client.heap, events⟩ := by
  induction h with
  | start => exact ⟨rfl, .nil _, rfl⟩
  | serve _ _ hserve ih =>
    obtain ⟨-, inner, hinner, rfl⟩ := Client.serve_eq_ok.mp hserve
    have next := deals_serve hinner
    refine ⟨next.level.trans ih.level, ?_, ?_⟩
    · have hdealings := next.dealings
      rw [ih.level] at hdealings
      exact ih.dealings.append hdealings
    · rw [eventsOf, List.flatMap_append]
      exact congr (congrArg _ ih.events) next.events
  | write _ hwrite ih =>
    obtain ⟨-, rfl⟩ := Client.update_eq_ok.mp hwrite
    exact ⟨ih.level, ih.dealings, ih.events⟩

theorem words (asks : AsksWords α) (h : Booked first log events client) :
    ∀ inquiry ∈ log, 0 < inquiry.bytes ∧ inquiry.bytes < Word.bound := by
  induction h with
  | start => exact List.forall_mem_nil _
  | serve _ _ _ ih => exact List.forall_mem_append.mpr ⟨ih, words_inquiries asks⟩
  | write _ _ ih => exact ih

end Booked

/-- The books of a run agree with everything that happened in it. -/
structure Books (unit : Nat) (stop : ρ → Nat) (watcher : Option Observer) (start : Framed α ρ)
    (log : List (Inquiry ρ)) (events : List Event) (client : Client (Framed α ρ)) : Prop
    extends Account unit stop watcher start.provider log client.heap.provider where
  dealings : Dealings .all start.provider log client.heap.provider
  events : events = eventsOf log

theorem Booked.books {unit : Nat} {stop : ρ → Nat} {watcher : Option Observer} {Fit : ρ → Prop}
    {start : Framed α ρ} {log : List (Inquiry ρ)} {events : List Event}
    {client : Client (Framed α ρ)} (asks : AsksWords α)
    (exact : Provider.Exact unit stop watcher Fit) (hfit : Fit start.provider)
    (hlevel : start.level = .all) (h : Booked ⟨start, ∅⟩ log events client) :
    Books unit stop watcher start log events client ∧ Fit client.heap.provider := by
  have hdealings : Dealings start.level start.provider log client.heap.provider := h.deals.dealings
  rw [hlevel] at hdealings
  obtain ⟨account, hlast⟩ := hdealings.account exact hfit (h.words asks)
  exact ⟨⟨account, hdealings, h.deals.events⟩, hlast⟩

/-- With everything reported, all accounts of growth agree after every run, over a linear
region with an observer as well as over a break: what the source gave, where it lies, what
the observer was told and what was written, request by request, and by how much the region
has grown. Only the size of a region that takes up the whole address space is no word, and
is then reported as the largest one. The session of a process may have been started or not,
and runs do not end before the client wants them to. -/
theorem accounts_of_run (asks : AsksWords α) :
    (∀ {μ : Type} [PageStore μ] {Fit : μ → Prop} {observer : Observer}
      {start : Framed α (Linear μ)} {log events client},
      PageStore.Contract Fit → Fit start.provider.store → start.level = .all →
      start.provider.observer = some observer → Booked ⟨start, ∅⟩ log events client →
      Books linearPageSize Linear.stop (some observer) start log events client ∧
      PageStore.size client.heap.provider.store * linearPageSize =
        PageStore.size start.provider.store * linearPageSize + bytesIn (grantsOf log) ∧
      client.heap.provider.regionSize =
        Word.addSat start.provider.regionSize (bytesIn (grantsOf log)) ∧
      (PageStore.size client.heap.provider.store * linearPageSize < Word.bound →
        client.heap.provider.regionSize =
          start.provider.regionSize + bytesIn (grantsOf log))) ∧
    (∀ {κ : Type} [BreakSystem κ] {start : Framed α κ} {log events client},
      BreakSystem.Contract κ → (BreakSystem.session start.provider).Sound → start.level = .all →
      Booked ⟨start, ∅⟩ log events client →
      Books (Provider.pageSize start.provider) BreakSystem.top none start log events client) ∧
    (∀ {ρ : Type} [Provider ρ] {Sound : α → ρ → Memory → Prop} {Fit : ρ → Prop}
      {start : Framed α ρ} {log events client},
      Contract Sound → Provider.Reliable Fit → start.Fresh Sound Fit →
      Booked ⟨start, ∅⟩ log events client →
      ∀ {request : Request}, request.Words → (∀ user ∈ request.subject?, user ∈ client.held) →
        ∃ reply, client.serve request = .ok reply) := by
  refine ⟨?_, ?_, ?_⟩
  · intro μ _ Fit observer start log events client contract hfit hlevel hobserver hrun
    have exact := Linear.exact contract start.provider
    rw [hobserver] at exact
    obtain ⟨books, hfollows⟩ := hrun.books asks exact ⟨hfit, rfl, rfl⟩ hlevel
    have hsize := hfollows.size books.gained
    have hregion := Word.addSat_mulSat hsize
    refine ⟨books, hsize, hregion.symm, fun hword => ?_⟩
    rw [Linear.regionSize, Linear.regionSize, ← hregion, Word.addSat, Word.mulSat]
    have hmax : Word.bound = Word.max + 1 := rfl
    omega
  · intro κ _ start log events client contract hsound hlevel hrun
    have hready := hsound.ensureReady
    exact (hrun.books asks (BreakSystem.exact contract hready.power hready.word) rfl hlevel).1
  · intro ρ _ Sound Fit start log events client contract reliable fresh hrun request hwords hheld
    obtain ⟨deeds, hdeeds⟩ := hrun.run
    obtain ⟨intact, sizes⟩ := fresh.run contract reliable hdeeds
    exact Client.serve_returns (meets_contract contract reliable) ⟨_, intact, sizes⟩ hwords hheld

theorem booked_serve {β : Type} (start : Framed α ρ) (request : Request)
    (f : Client (Framed α ρ) → β) {value : β} (hwords : request.Words)
    (h : ((Client.mk start ∅).serve request >>= fun reply => pure (f reply.state)) = .ok value) :
    ∃ events client, Booked ⟨start, ∅⟩ (start.inquiries request) events client ∧
      f client = value := by
  obtain ⟨reply, hserve, hvalue⟩ := bind_eq_ok.mp h
  exact ⟨_, reply.state, Booked.start.serve hwords hserve, Except.ok.inj hvalue⟩

/-- A heap over a reservation of four pages, one of them in use. -/
def onReserve : Framed TopSpace (Linear ReservedPages) :=
  initial .all ⟨⟨0x100000000000, 4, 1⟩, some ⟨"a"⟩⟩

/-- The heap of a new process that reports everything. -/
def onTracedBreak : Framed TopSpace Break := { onBreak with level := .all }

/-- The same request is met from a reservation and from a break. -/
theorem accounts_of_run_once : (∃ log events client,
      Booked ⟨onReserve, ∅⟩ log events client ∧
      Books linearPageSize Linear.stop (some ⟨"a"⟩) onReserve log events client ∧
      grantsOf log = [⟨0x100000010000, 65536⟩] ∧
      client.heap.provider.regionSize = 131072) ∧
    ∃ log events client, Booked ⟨onTracedBreak, ∅⟩ log events client ∧
      Books 4096 BreakSystem.top none onTracedBreak log events client ∧
      grantsOf log = [⟨0x10000000000, 65536⟩] ∧ client.heap.provider.top = 0x10000010000 := by
  have hfit : PageStore.Within ReservedPages.limit onReserve.provider.store :=
    ⟨by decide, by decide⟩
  obtain ⟨hlinear, hbreak, -⟩ := accounts_of_run TopSpace.asks_words
  constructor
  · obtain ⟨events, client, hrun, hsize⟩ := booked_serve onReserve (.allocate 100)
      (·.heap.provider.regionSize) (by decide) (show _ = Except.ok 131072 by decide +kernel)
    exact ⟨_, events, client, hrun,
      (hlinear ReservedPages.limited.contract hfit rfl rfl hrun).1, by decide +kernel, hsize⟩
  · obtain ⟨events, client, hrun, htop⟩ := booked_serve onTracedBreak (.allocate 100)
      (·.heap.provider.top) (by decide) (show _ = Except.ok 0x10000010000 by decide +kernel)
    exact ⟨_, events, client, hrun,
      hbreak Break.contract (Session.sound_cold none (by decide)) rfl hrun, by decide +kernel,
      htop⟩

/-- A heap over a page count that is one page short of the whole address space. -/
def onBrink : Framed TopSpace (Linear PageCounter) :=
  initial .all ⟨⟨0, 1 <<< 48, (1 <<< 48) - 1⟩, some ⟨"a"⟩⟩

/-- The last page of the address space counts for one byte less than it has. -/
theorem saturated_region : PageStore.Contract (PageStore.Within PageCounter.limit) ∧
    PageStore.Within PageCounter.limit onBrink.provider.store ∧
    ∃ log events client, Booked ⟨onBrink, ∅⟩ log events client ∧
      grantsOf log = [⟨Word.bound - 65536, 65536⟩] ∧
      client.heap.provider.regionSize - onBrink.provider.regionSize ≠
        bytesIn (grantsOf log) := by
  refine ⟨PageCounter.limited.contract, ⟨by decide, by decide⟩, ?_⟩
  obtain ⟨events, client, hrun, hsize⟩ := booked_serve onBrink (.allocate 100)
    (·.heap.provider.regionSize) (by decide) (show _ = Except.ok Word.max by decide +kernel)
  refine ⟨_, events, client, hrun, by decide +kernel, ?_⟩
  rw [hsize]
  decide +kernel

end Framed

end RegionHeap
