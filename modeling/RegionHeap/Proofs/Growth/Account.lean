import RegionHeap.Proofs.Growth.Exact
import RegionHeap.Proofs.Growth.Source.Answer

/-!
# The books of a source

Whatever a source is asked for, its reply says in four ways what became of the
request: by the grant, by the question to the provider, by the notice to the
observer and by the line that is written. Over an exact provider these agree
with each other and with where the region ends, for a single request and hence
for any number of requests in a row.
-/
namespace RegionHeap.Growth

open Checked

variable {ρ : Type}

structure Inquiry (ρ : Type) where
  bytes : Nat
  provider : ρ
  reply : Reply (Option Grant) ρ

/-- The blocks that were given, in order. -/
def grantsOf (log : List (Inquiry ρ)) : List Grant := log.filterMap (·.reply.answer)

/-- The number of bytes in some blocks. -/
def bytesIn : List Grant → Nat
  | [] => 0
  | grant :: rest => grant.size + bytesIn rest

theorem grantsOf_append (log more : List (Inquiry ρ)) :
    grantsOf (log ++ more) = grantsOf log ++ grantsOf more := List.filterMap_append

theorem grantsOf_cons (inquiry : Inquiry ρ) (log : List (Inquiry ρ)) :
    grantsOf (inquiry :: log) = inquiry.reply.answer.toList ++ grantsOf log := by
  cases hanswer : inquiry.reply.answer <;> simp [grantsOf, hanswer]

theorem bytesIn_append (grants others : List Grant) :
    bytesIn (grants ++ others) = bytesIn grants + bytesIn others := by
  induction grants with
  | nil => exact (Nat.zero_add _).symm
  | cons grant rest ih => rw [List.cons_append, bytesIn, ih, bytesIn, Nat.add_assoc]

/-- Everything that happened, in order. -/
def eventsOf (log : List (Inquiry ρ)) : List Event := log.flatMap (·.reply.events)

/-- What a provider is asked for when `size` bytes are wanted, if a signed number is enough. -/
def Source.wanted? (unit size : Nat) : Option Nat :=
  if Word.ceiling size unit ≤ Word.signedMax then some (Word.ceiling size unit) else none

namespace Inquiry

/-- The line that a request leaves when everything is reported. A refusal by the source
itself names the size that was wanted. -/
def line (unit : Nat) (inquiry : Inquiry ρ) : List UInt8 :=
  match inquiry.reply.answer with
  | some grant => Trace.grantLine grant.size
  | none => Trace.rejectionLine ((Source.wanted? unit inquiry.bytes).getD inquiry.bytes)

structure Settled (unit : Nat) (stop : ρ → Nat) (watcher : Option Observer)
    (inquiry : Inquiry ρ) : Prop where
  granted : ∀ {grant}, inquiry.reply.answer = some grant →
    grant.base = stop inquiry.provider ∧ 0 < grant.size ∧ unit ∣ grant.size ∧
      inquiry.bytes ≤ grant.size ∧
      stop inquiry.reply.state = stop inquiry.provider + grant.size
  refused : inquiry.reply.answer = none → stop inquiry.reply.state = stop inquiry.provider
  /-- The provider is asked once, or not at all. -/
  asked : requestsIn inquiry.reply.events =
    ((Source.wanted? unit inquiry.bytes).map fun bytes =>
      ((bytes : Int), inquiry.reply.answer.map Grant.base)).toList
  notices : noticesIn inquiry.reply.events =
    inquiry.reply.answer.toList.flatMap (noticesOf watcher)
  lines : linesIn inquiry.reply.events = [inquiry.line unit]

end Inquiry

section source

variable [Provider ρ] {unit size bytes : Nat} {stop : ρ → Nat} {watcher : Option Observer}
  {Fit : ρ → Prop} {provider : ρ}

namespace Source

theorem wanted?_eq_some (h : wanted? unit size = some bytes) :
    bytes = Word.ceiling size unit ∧ bytes ≤ Word.signedMax := by
  obtain ⟨hsigned, hbytes⟩ := Option.ite_none_right_eq_some.mp h
  obtain rfl := Option.some.inj hbytes
  exact ⟨rfl, hsigned⟩

theorem ask_eq {grown : Reply (Option Nat) ρ} (h : bytes ≤ Word.signedMax)
    (hgrow : Provider.grow (bytes : Int) provider = .ok grown) :
    ask .all bytes provider = .ok ⟨grown.answer.map (⟨·, bytes⟩), grown.state,
      .growthAsked bytes grown.answer :: grown.events ++
        [.traced (if grown.answer.isSome then Trace.grantLine bytes
          else Trace.rejectionLine bytes)]⟩ := by
  rw [ask_eq_map .all h, hgrow, Except.map]
  cases grown.answer <;> rfl

theorem obtain_eq (exact : Provider.Exact unit stop watcher Fit) (hfit : Fit provider)
    (h : size < Word.bound) :
    obtain .all size provider =
      match wanted? unit size with
      | some bytes => ask .all bytes provider
      | none => .ok ⟨none, provider, [.traced (Trace.rejectionLine size)]⟩ := by
  obtain rfl := exact.pageSize hfit
  rw [obtain_eq_ask .all exact.power exact.word h, wanted?, multiple]
  split <;> rfl

section between

variable {delta : Int} {base : Option Nat} {events : List Event} {line : List UInt8}

theorem requestsIn_between (h : requestsIn events = []) :
    requestsIn (.growthAsked delta base :: events ++ [.traced line]) = [(delta, base)] := by
  change requestsIn ([.growthAsked delta base] ++ events ++ [.traced line]) = _
  rw [requestsIn_append, requestsIn_append, h]
  rfl

theorem noticesIn_between :
    noticesIn (.growthAsked delta base :: events ++ [.traced line]) = noticesIn events := by
  change noticesIn ([.growthAsked delta base] ++ events ++ [.traced line]) = _
  rw [noticesIn_append, noticesIn_append]
  exact List.append_nil _

theorem linesIn_between (h : linesIn events = []) :
    linesIn (.growthAsked delta base :: events ++ [.traced line]) = [line] := by
  change linesIn ([.growthAsked delta base] ++ events ++ [.traced line]) = _
  rw [linesIn_append, linesIn_append, h]
  rfl

end between

/-- Over an exact provider every request for a positive word is answered and settled. -/
theorem obtain_settled (exact : Provider.Exact unit stop watcher Fit) (hfit : Fit provider)
    (hpos : 0 < size) (hword : size < Word.bound) :
    ∃ reply, obtain .all size provider = .ok reply ∧ Fit reply.state ∧
      (Inquiry.mk size provider reply).Settled unit stop watcher := by
  have hunit := Word.pos_of_isPowerOfTwo exact.power
  rw [obtain_eq exact hfit hword]
  cases hwanted : wanted? unit size with
  | none =>
    refine ⟨_, rfl, hfit, ?_, fun _ => rfl, ?_, rfl, ?_⟩
    · intro grant hgrant
      cases hgrant
    · rw [hwanted]
      rfl
    · rw [Inquiry.line, hwanted]
      rfl
  | some bytes =>
    obtain ⟨hceiling, hsigned⟩ := wanted?_eq_some hwanted
    have hsize : size ≤ bytes := hceiling ▸ Word.le_ceiling size hunit
    have hdvd : unit ∣ bytes := hceiling ▸ Nat.dvd_mul_left unit _
    obtain ⟨grown, hgrow, hnext, hgrows, hrequests, hlines⟩ :=
      exact.grow hfit (Nat.lt_of_lt_of_le hpos hsize) hdvd hsigned
    refine ⟨_, ask_eq hsigned hgrow, hnext, ?_⟩
    cases hgrows with
    | refused hstop hnotices =>
      constructor
      case granted => simp
      case refused => exact fun _ => hstop
      case asked => rw [requestsIn_between hrequests, hwanted]; rfl
      case notices => rw [noticesIn_between, hnotices]; rfl
      case lines => rw [linesIn_between hlines, Inquiry.line, hwanted]; rfl
    | granted hstop hnotices =>
      constructor
      case granted =>
        intro grant hgrant
        obtain rfl := Option.some.inj hgrant
        exact ⟨rfl, Nat.lt_of_lt_of_le hpos hsize, hdvd, hsize, hstop⟩
      case refused => simp
      case asked => rw [requestsIn_between hrequests, hwanted]; rfl
      case notices =>
        rw [noticesIn_between, hnotices]
        exact (List.append_nil _).symm
      case lines => rw [linesIn_between hlines]; rfl

end Source

/-- Requests to a source one after the other, from one provider to another. -/
inductive Dealings (level : Trace.Level) : ρ → List (Inquiry ρ) → ρ → Prop
  | nil (provider : ρ) : Dealings level provider [] provider
  | cons {provider last : ρ} {bytes : Nat} {reply : Reply (Option Grant) ρ}
      {log : List (Inquiry ρ)} :
      Source.obtain level bytes provider = .ok reply → Dealings level reply.state log last →
      Dealings level provider (⟨bytes, provider, reply⟩ :: log) last

theorem Dealings.append {level : Trace.Level} {first middle last : ρ}
    {log more : List (Inquiry ρ)} (h : Dealings level first log middle)
    (hmore : Dealings level middle more last) : Dealings level first (log ++ more) last := by
  induction h with
  | nil provider => exact hmore
  | cons hobtain _ ih => exact .cons hobtain (ih hmore)

/-- The books of a source over a region that was `first` and is `last` now. -/
structure Account (unit : Nat) (stop : ρ → Nat) (watcher : Option Observer) (first : ρ)
    (log : List (Inquiry ρ)) (last : ρ) : Prop where
  settled : ∀ inquiry ∈ log, inquiry.Settled unit stop watcher
  /-- The region has gained exactly the blocks. -/
  gained : stop last = stop first + bytesIn (grantsOf log)
  /-- A block starts where all the blocks before it end. -/
  placed : ∀ {i : Nat} {grant}, (grantsOf log)[i]? = some grant →
    grant.base = stop first + bytesIn ((grantsOf log).take i)
  notices : noticesIn (eventsOf log) = (grantsOf log).flatMap (noticesOf watcher)
  lines : linesIn (eventsOf log) = log.map (Inquiry.line unit)

namespace Account

variable {first last : ρ} {inquiry : Inquiry ρ} {log : List (Inquiry ρ)}

omit [Provider ρ] in
theorem nil : Account unit stop watcher first [] first := by
  constructor <;> simp [grantsOf, eventsOf, bytesIn, noticesIn, linesIn]

omit [Provider ρ] in
theorem cons (hsettled : inquiry.Settled unit stop watcher)
    (h : Account unit stop watcher inquiry.reply.state log last) :
    Account unit stop watcher inquiry.provider (inquiry :: log) last := by
  have hgrants := grantsOf_cons inquiry log
  have hevents : eventsOf (inquiry :: log) = inquiry.reply.events ++ eventsOf log := rfl
  constructor
  case settled => exact List.forall_mem_cons.mpr ⟨hsettled, h.settled⟩
  case gained =>
    rw [h.gained, hgrants]
    cases hanswer : inquiry.reply.answer with
    | none => rw [hsettled.refused hanswer]; rfl
    | some grant =>
      obtain ⟨-, -, -, -, hstop⟩ := hsettled.granted hanswer
      rw [hstop, Nat.add_assoc]
      rfl
  case placed =>
    intro i grant hgrant
    rw [hgrants] at hgrant ⊢
    cases hanswer : inquiry.reply.answer with
    | none =>
      rw [hanswer] at hgrant
      rw [h.placed hgrant, hsettled.refused hanswer]
      rfl
    | some new =>
      obtain ⟨hbase, -, -, -, hstop⟩ := hsettled.granted hanswer
      rw [hanswer] at hgrant
      cases i with
      | zero =>
        obtain rfl := Option.some.inj hgrant
        exact hbase
      | succ i =>
        rw [h.placed hgrant, hstop, Nat.add_assoc]
        rfl
  case notices =>
    rw [hevents, noticesIn_append, hsettled.notices, h.notices, hgrants, List.flatMap_append]
  case lines => rw [hevents, linesIn_append, hsettled.lines, h.lines, List.map_cons]; rfl

end Account

/-- Positive words that are asked for one after the other are accounted for. -/
theorem Dealings.account {first last : ρ} {log : List (Inquiry ρ)}
    (exact : Provider.Exact unit stop watcher Fit) (hfit : Fit first)
    (h : Dealings .all first log last)
    (hwords : ∀ inquiry ∈ log, 0 < inquiry.bytes ∧ inquiry.bytes < Word.bound) :
    Account unit stop watcher first log last ∧ Fit last := by
  induction h with
  | nil provider => exact ⟨.nil, hfit⟩
  | cons hobtain _ ih =>
    obtain ⟨⟨hpos, hword⟩, hrest⟩ := List.forall_mem_cons.mp hwords
    obtain ⟨reply, hreply, hnext, hsettled⟩ := Source.obtain_settled exact hfit hpos hword
    obtain rfl := Except.ok.inj (hobtain.symm.trans hreply)
    obtain ⟨account, hlast⟩ := ih hnext hrest
    exact ⟨account.cons hsettled, hlast⟩

end source

end RegionHeap.Growth
