import RegionHeap.Proofs.Growth.Account
import RegionHeap.Proofs.Growth.Honest
import RegionHeap.Proofs.Word.Rounding

/-!
# A source between an allocator and its provider

A source makes of a size the least multiple of its provider's unit that is large enough. If no
signed word is that large it refuses by itself and reports the size. Otherwise it asks once, for
exactly that multiple, and its answer, its report and what becomes of the provider are those of
this one question. Nothing else is assumed of the provider for this. If the provider is honest,
the blocks of a source are within what was granted and no two of them meet, whoever else grows
the same provider in between.
-/
namespace RegionHeap

open Checked

namespace Growth

structure Recorded (ρ : Type) where
  behind : ρ
  deltas : List Int := []

variable {ρ : Type} [Provider ρ]

instance : Provider (Recorded ρ) where
  grow delta recorded := do
    let reply ← Provider.grow delta recorded.behind
    return ⟨reply.answer, ⟨reply.state, recorded.deltas ++ [delta]⟩, reply.events⟩
  pageSize recorded := Provider.pageSize recorded.behind
  growsZeroed recorded := Provider.growsZeroed recorded.behind

namespace Source

variable {provider : ρ} {level : Trace.Level} {size bytes : Nat}

/-- What a source makes of a request for `size` bytes. -/
structure Adapts (level : Trace.Level) (size : Nat) (provider : ρ) : Prop where
  least : IsLeast {bytes | Provider.pageSize provider ∣ bytes ∧ size ≤ bytes}
    (multiple size provider)
  beyond : Word.signedMax < multiple size provider →
    obtain level size provider = .ok ⟨none, provider, (Report.rejected size).told level⟩
  within : multiple size provider ≤ Word.signedMax →
    obtain level size provider =
      (Provider.grow (multiple size provider) provider).map fun grown =>
        ⟨grown.answer.map (⟨·, multiple size provider⟩), grown.state,
          .growthAsked (multiple size provider) grown.answer :: grown.events ++
            (Report.ofAnswer (multiple size provider) grown.answer).told level⟩
  /-- The provider is asked once or never, and a record of that changes nothing. -/
  asked : ∀ deltas, obtain level size (⟨provider, deltas⟩ : Recorded ρ) =
    (obtain level size provider).map fun reply =>
      ⟨reply.answer, ⟨reply.state, deltas ++ if multiple size provider ≤ Word.signedMax then
        [(multiple size provider : Int)] else []⟩, reply.events⟩

theorem adapts (level : Trace.Level) (hpower : Word.isPowerOfTwo (Provider.pageSize provider))
    (hword : Provider.pageSize provider < Word.bound) (hsize : size < Word.bound) :
    Adapts level size provider where
  least := Word.isLeast_ceiling size (Word.pos_of_isPowerOfTwo hpower)
  beyond h := by rw [obtain_eq_ask level hpower hword hsize, if_neg (Nat.not_le.mpr h)]
  within h := by rw [obtain_eq_ask level hpower hword hsize, if_pos h, ask_eq_map level h]
  asked := by
    intro deltas
    have hrecorded : obtain level size (⟨provider, deltas⟩ : Recorded ρ) =
        if multiple size provider ≤ Word.signedMax then
          ask level (multiple size provider) ⟨provider, deltas⟩
        else .ok ⟨none, ⟨provider, deltas⟩, (Report.rejected size).told level⟩ :=
      obtain_eq_ask level hpower hword hsize
    rw [hrecorded, obtain_eq_ask level hpower hword hsize]
    by_cases hfits : multiple size provider ≤ Word.signedMax
    · rw [if_pos hfits, if_pos hfits, if_pos hfits, ask_eq_map level hfits,
        ask_eq_map level hfits]
      change Except.map _ (Provider.grow _ provider >>= _) = _
      cases Provider.grow (multiple size provider : Int) provider <;> rfl
    · rw [if_neg hfits, if_neg hfits, if_neg hfits, List.append_nil]
      rfl

section honest

variable {Fit : ρ → Prop} {granted : ρ → Nat → Prop} {first last : ρ} {log : List (Inquiry ρ)}

/-- Requests to a source, reported at any level, while anybody may grow the provider too. -/
inductive Calls : ρ → List (Inquiry ρ) → ρ → Prop
  | nil (provider : ρ) : Calls provider [] provider
  | obtain {level : Trace.Level} {size : Nat} {provider last : ρ}
      {reply : Reply (Option Grant) ρ} {log : List (Inquiry ρ)} :
      size < Word.bound → Source.obtain level size provider = .ok reply →
      Calls reply.state log last → Calls provider (⟨size, provider, reply⟩ :: log) last
  | aside {delta : Int} {provider last : ρ} {reply : Reply (Option Nat) ρ}
      {log : List (Inquiry ρ)} :
      delta ≤ Word.signedMax → Provider.grow delta provider = .ok reply →
      Calls reply.state log last → Calls provider log last

structure Delivers (granted : ρ → Nat → Prop) (inquiry : Inquiry ρ) : Prop where
  kept : ∀ address, granted inquiry.provider address → granted inquiry.reply.state address
  covers : ∀ {grant}, inquiry.reply.answer = some grant → inquiry.bytes ≤ grant.size
  within : ∀ {grant address}, inquiry.reply.answer = some grant → grant.Has address →
    granted inquiry.reply.state address ∧ ¬granted inquiry.provider address

theorem obtain_delivers (honest : Provider.Honest Fit granted) (hfit : Fit provider)
    (hsize : size < Word.bound) {reply : Reply (Option Grant) ρ}
    (h : obtain level size provider = .ok reply) :
    Fit reply.state ∧ Delivers granted ⟨size, provider, reply⟩ := by
  have hpower := honest.power hfit
  rw [obtain_eq_ask level hpower (honest.word hfit) hsize] at h
  by_cases hfits : multiple size provider ≤ Word.signedMax
  · rw [if_pos hfits, ask_eq_map level hfits] at h
    cases hgrow : Provider.grow (multiple size provider : Int) provider with
    | error fault =>
      rw [hgrow] at h
      cases h
    | ok grown =>
      rw [hgrow] at h
      cases h
      have hsigned : (multiple size provider : Int) ≤ Word.signedMax := Int.ofNat_le.mpr hfits
      refine ⟨honest.fit hfit hsigned hgrow, honest.kept hfit hsigned hgrow, ?_, ?_⟩
      · intro grant hgrant
        obtain ⟨base, -, rfl⟩ := Option.map_eq_some_iff.mp hgrant
        exact Word.le_ceiling size (Word.pos_of_isPowerOfTwo hpower)
      · intro grant address hgrant haddress
        obtain ⟨base, hbase, rfl⟩ := Option.map_eq_some_iff.mp hgrant
        -- A block that has an address was asked for with a positive number.
        have hpos : (0 : Int) < multiple size provider := by
          obtain ⟨hlow, hhigh⟩ := haddress
          dsimp only at hlow hhigh
          omega
        exact honest.block hfit hpos hsigned hgrow hbase haddress
  · rw [if_neg hfits] at h
    cases h
    exact ⟨hfit, fun _ => id, nofun, nofun⟩

/-- The blocks of some requests are new, are granted in the end, and do not meet. -/
structure Parcels (granted : ρ → Nat → Prop) (first : ρ) (log : List (Inquiry ρ))
    (last : ρ) : Prop where
  kept : ∀ address, granted first address → granted last address
  delivered : ∀ inquiry ∈ log, Delivers granted inquiry
  within : ∀ grant ∈ grantsOf log, ∀ {address}, grant.Has address →
    granted last address ∧ ¬granted first address
  apart : (grantsOf log).Pairwise Grant.Apart

omit [Provider ρ] in
theorem Parcels.nil (provider : ρ) : Parcels granted provider [] provider :=
  ⟨fun _ => id, nofun, nofun, .nil⟩

omit [Provider ρ] in
theorem Parcels.cons {inquiry : Inquiry ρ} (hdelivers : Delivers granted inquiry)
    (h : Parcels granted inquiry.reply.state log last) :
    Parcels granted inquiry.provider (inquiry :: log) last := by
  have hgrants := grantsOf_cons inquiry log
  constructor
  case kept => exact fun address hold => h.kept address (hdelivers.kept address hold)
  case delivered => exact List.forall_mem_cons.mpr ⟨hdelivers, h.delivered⟩
  case within =>
    intro grant hmem address haddress
    rw [hgrants, List.mem_append, Option.mem_toList] at hmem
    rcases hmem with hnew | hlater
    · obtain ⟨hgiven, hbefore⟩ := hdelivers.within hnew haddress
      exact ⟨h.kept address hgiven, hbefore⟩
    · obtain ⟨hgiven, hbefore⟩ := h.within grant hlater haddress
      exact ⟨hgiven, fun hold => hbefore (hdelivers.kept address hold)⟩
  case apart =>
    rw [hgrants, List.pairwise_append]
    refine ⟨by cases inquiry.reply.answer <;> simp, h.apart, ?_⟩
    -- The later block was not granted when the earlier one had been.
    intro new hnew later hlater address hhas hmeets
    exact (h.within later hlater hmeets).2 (hdelivers.within (Option.mem_toList.mp hnew) hhas).1

omit [Provider ρ] in
theorem Parcels.before (h : Parcels granted provider log last)
    (hkept : ∀ address, granted first address → granted provider address) :
    Parcels granted first log last where
  kept address hold := h.kept address (hkept address hold)
  delivered := h.delivered
  within grant hgrant address haddress :=
    ⟨(h.within grant hgrant haddress).1,
      fun hold => (h.within grant hgrant haddress).2 (hkept address hold)⟩
  apart := h.apart

theorem Calls.parcels (honest : Provider.Honest Fit granted) (hfit : Fit first)
    (h : Calls first log last) : Fit last ∧ Parcels granted first log last := by
  induction h with
  | nil provider => exact ⟨hfit, .nil provider⟩
  | obtain hsize hobtain _ ih =>
    obtain ⟨hnext, hdelivers⟩ := obtain_delivers honest hfit hsize hobtain
    obtain ⟨hlast, parcels⟩ := ih hnext
    exact ⟨hlast, parcels.cons hdelivers⟩
  | aside hsigned hgrow _ ih =>
    obtain ⟨hlast, parcels⟩ := ih (honest.fit hfit hsigned hgrow)
    exact ⟨hlast, parcels.before (honest.kept hfit hsigned hgrow)⟩

/-- A source makes of a size the least multiple of its provider's unit that is large enough.
Beyond the signed words it refuses by itself, reports the size and leaves the provider alone.
Otherwise the provider is asked once, for exactly the multiple, and the reply is its answer:
a grant of that multiple, reported as such, or a refusal of it, also reported. Over a provider
that is honest every block covers what was wanted, lies in memory that was granted by then and
not before, and meets no other, however often and at whatever levels the source is called and
whoever else grows the provider between two calls. -/
theorem adapts_of_unit (level : Trace.Level)
    (hpower : Word.isPowerOfTwo (Provider.pageSize provider))
    (hword : Provider.pageSize provider < Word.bound) (hsize : size < Word.bound) :
    Adapts level size provider ∧
      ∀ {Fit : ρ → Prop} {granted : ρ → Nat → Prop} {first last : ρ} {log : List (Inquiry ρ)},
        Provider.Honest Fit granted → Fit first → Calls first log last →
          Parcels granted first log last :=
  ⟨adapts level hpower hword hsize, fun honest hfit hcalls => (hcalls.parcels honest hfit).2⟩

end honest

theorem obtain_of_room {process : Break} (level : Trace.Level) (hsound : process.session.Sound)
    (hsize : size < Word.bound) (hbytes : multiple size process = bytes)
    (hdelta : bytes < 1 <<< 47) (hroom : process.top + bytes < Word.max) :
    obtain level size process = .ok ⟨some ⟨process.top, bytes⟩,
      ⟨process.session, process.top + bytes⟩,
      .growthAsked bytes (some process.top) :: (Report.granted bytes).told level⟩ := by
  have hsigned : bytes ≤ Word.signedMax := Nat.le_of_lt (Nat.lt_trans hdelta (by decide))
  rw [obtain_eq_ask level hsound.ensureReady.power hsound.ensureReady.word hsize, hbytes,
    if_pos hsigned, ask_eq_map level hsigned, Break.grow_of_room hdelta hroom]
  rfl

/-- Two requests and one of somebody else leave three blocks after each other, of which the
source has the first and the last. What no signed word can ask for does not reach the system. -/
theorem adapts_of_unit_break : ∃ log last,
    Calls Break.fresh log last ∧
      grantsOf log = [⟨0x10000000000, 4096⟩, ⟨0x10000001064, 8192⟩] ∧
      Parcels (BreakSystem.Passed 0x10000000000) Break.fresh log last ∧
      multiple Word.signedMax last = Word.signedMax + 1 ∧
      obtain .all Word.signedMax last =
        .ok ⟨none, last, [.traced (Trace.rejectionLine Word.signedMax)]⟩ := by
  have hsound := Break.sound_fresh
  have hfirst : obtain .off 1 Break.fresh = .ok ⟨some ⟨0x10000000000, 4096⟩,
      ⟨Break.fresh.session, 0x10000001000⟩, [.growthAsked 4096 (some 0x10000000000)]⟩ :=
    obtain_of_room .off hsound (by decide) (by decide) (by decide) (by decide)
  have haside : Provider.grow (100 : Nat) (⟨Break.fresh.session, 0x10000001000⟩ : Break) =
      .ok ⟨some 0x10000001000, ⟨Break.fresh.session, 0x10000001064⟩, []⟩ :=
    Break.grow_of_room (by decide) (by decide)
  have hsecond : obtain .rejections 5000 (⟨Break.fresh.session, 0x10000001064⟩ : Break) =
      .ok ⟨some ⟨0x10000001064, 8192⟩, ⟨Break.fresh.session, 0x10000003064⟩,
        [.growthAsked 8192 (some 0x10000001064)]⟩ :=
    obtain_of_room .rejections hsound (by decide) (by decide) (by decide) (by decide)
  have hcalls := Calls.obtain (by decide) hfirst
    (.aside (by decide) haside (.obtain (by decide) hsecond (.nil _)))
  have hmultiple : multiple Word.signedMax (⟨Break.fresh.session, 0x10000003064⟩ : Break) =
      Word.signedMax + 1 := by decide
  obtain ⟨adapts, parcels⟩ := @adapts_of_unit Break _ ⟨Break.fresh.session, 0x10000003064⟩
    Word.signedMax .all hsound.ensureReady.power hsound.ensureReady.word (by decide)
  exact ⟨_, _, hcalls, rfl, parcels (BreakSystem.honest Break.contract _)
    ⟨hsound, Nat.le_refl _⟩ hcalls, hmultiple, adapts.beyond (hmultiple ▸ Nat.lt_succ_self _)⟩

end Source

end Growth

end RegionHeap
