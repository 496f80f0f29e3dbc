import RegionHeap.Proofs.Framed.Account
import RegionHeap.Proofs.Growth.Contiguous
import RegionHeap.Proofs.Sized.TopRule

/-!
# The balance of a top

An allocator that follows the rule of the top, over a provider that is contiguous, loses no
byte as long as blocks are given back in the opposite order: the top and the cells of the live
blocks make up what was granted, less the eighty bytes that are kept back of the first grant.
And since a source is asked for more than is missing, something of the top always remains.
-/
namespace RegionHeap.Sized

open Checked
open Growth (Grant Provider bytesIn bytesIn_append grantsOf)
open Growth.Source (Continues obtain_continues)
open TopSpace (cellLength growthFor)

/-- The number of bytes that the cells of the blocks take. -/
def cellsIn : List Block → Nat
  | [] => 0
  | block :: rest => cellLength block.total + cellsIn rest

/-- A dialogue that is done after its first question asks nothing else. -/
theorem Dialogue.ask_once {β ρ : Type} [Provider ρ] {level : Trace.Level} {bytes : Nat}
    {next : Option Grant → Dialogue β} {provider : ρ} {first : Reply (Option Grant) ρ} {result : β}
    (hfirst : Growth.Source.obtain level bytes provider = .ok first)
    (hnext : next first.answer = .done result) :
    (Dialogue.ask bytes next).run level provider = .ok ⟨result, first.state, first.events⟩ ∧
      (Dialogue.ask bytes next).inquiries level provider = [⟨bytes, provider, first⟩] := by
  constructor
  · refine Dialogue.run_ask_eq_ok.mpr ⟨first, ⟨result, first.state, []⟩, hfirst, ?_, ?_⟩
    · rw [hnext]
      rfl
    · rw [List.append_nil]
  · rw [Dialogue.inquiries, hfirst]
    simp only [hnext, Dialogue.inquiries]

variable {α ρ : Type} {room : α → Nat} {limit : Nat} {Given : Grant → Prop}
  {Stack : α → Option Nat → List Block → Prop} {unit : Nat} {stop : ρ → Nat}
  {watcher : Option Observer} {Fit : ρ → Prop} {grants : List Grant} {block : Block}
  {blocks : List Block} {s : α} {provider next : ρ} {total : Nat} {m : Memory}

/-- Where the region ends that the allocator has, if it has got one. -/
def regionEnd? (stop : ρ → Nat) (grants : List Grant) (provider : ρ) : Option Nat :=
  if grants = [] then none else some (stop provider)

/-- The top and the cells are what was granted, but for what is kept back. -/
structure Balanced (room : α → Nat) (Stack : α → Option Nat → List Block → Prop)
    (stop : ρ → Nat) (grants : List Grant) (blocks : List Block) (s : α) (provider : ρ) :
    Prop where
  stack : Stack s (regionEnd? stop grants provider) blocks
  balance : room s + cellsIn blocks + (if grants = [] then 0 else 80) = bytesIn grants
  positive : grants ≠ [] → 0 < room s

namespace Balanced

theorem congr_stop (h : Balanced room Stack stop grants blocks s provider)
    (hstop : stop next = stop provider) : Balanced room Stack stop grants blocks s next where
  stack := by
    rw [regionEnd?, hstop]
    exact h.stack
  balance := h.balance
  positive := h.positive

theorem granted_of_block (h : Balanced room Stack stop grants (block :: blocks) s provider) :
    grants ≠ [] := by
  rintro rfl
  have hbalance := h.balance
  have hpos := TopSpace.cellLength_pos block.total
  simp only [bytesIn, cellsIn, if_pos] at hbalance
  omega

theorem taken (h : Balanced room Stack stop grants blocks s provider) {s' : α}
    (hcut : room s' + cellLength block.total = room s) (hlt : cellLength block.total < room s)
    (hstack : Stack s' (regionEnd? stop grants provider) (block :: blocks)) :
    Balanced room Stack stop grants (block :: blocks) s' provider where
  stack := hstack
  balance := by
    have hbalance := h.balance
    simp only [cellsIn]
    omega
  positive _ := by omega

theorem granted (h : Balanced room Stack stop grants blocks s provider) {s' : α} {bytes : Nat}
    (hcut : room s' + cellLength block.total +
      (if regionEnd? stop grants provider = none then 80 else 0) = room s + bytes)
    (hlarge : cellLength block.total + 80 < bytes) (hstop : stop next = stop provider + bytes)
    (hstack : Stack s' (some (stop provider + bytes)) (block :: blocks)) :
    Balanced room Stack stop (grants ++ [⟨stop provider, bytes⟩]) (block :: blocks) s' next where
  stack := by
    rw [regionEnd?, if_neg (List.concat_ne_nil _ _), hstop]
    exact hstack
  balance := by
    have hbalance := h.balance
    have hend : regionEnd? stop grants provider = none ↔ grants = [] := by
      rw [regionEnd?]
      split <;> simp_all
    rw [if_neg (List.concat_ne_nil _ _), bytesIn_append]
    simp only [hend, cellsIn, bytesIn] at hcut ⊢
    split at hcut <;> simp_all <;> omega
  positive _ := by
    split at hcut <;> omega

theorem released (h : Balanced room Stack stop grants (block :: blocks) s provider) {s' : α}
    (hroom : room s' = room s + cellLength block.total)
    (hstack : Stack s' (regionEnd? stop grants provider) blocks) :
    Balanced room Stack stop grants blocks s' provider where
  stack := hstack
  balance := by
    have hbalance := h.balance
    simp only [cellsIn] at hbalance
    omega
  positive hgrants := by
    have hpositive := h.positive hgrants
    omega

variable [Allocator α] [Provider ρ]

omit [Provider ρ] in
theorem empty (rule : TopRule room limit Given Stack) (provider : ρ) :
    Balanced room Stack stop [] [] Allocator.empty provider where
  stack := rule.empty
  balance := rule.room_empty
  positive := absurd rfl

/-- A request leaves the balance, with the new block and with what was granted for it, if
anything. If it is refused, nothing was granted and the allocator is as it was. -/
theorem acquire (rule : TopRule room limit Given Stack)
    (contiguous : Provider.Contiguous unit stop watcher Given Fit)
    (h : Balanced room Stack stop grants blocks s provider) (hfit : Fit provider)
    {cleared : Bool} {dialogue : Dialogue (Outcome α)}
    (hdialogue : Allocator.acquire cleared total Word.minAlign s m = dialogue)
    (hasks : dialogue.Asks (· < Word.bound)) (level : Trace.Level) :
    ∃ reply, dialogue.run level provider = .ok reply ∧ Fit reply.state ∧
      Balanced room Stack stop (grants ++ grantsOf (dialogue.inquiries level provider))
        ((reply.answer.base.map (⟨·, total, Word.minAlign⟩)).toList ++ blocks)
        reply.answer.state reply.state ∧
      (reply.answer.base = none →
        reply.answer.state = s ∧ grantsOf (dialogue.inquiries level provider) = []) ∧
      (reply.answer.base ≠ none → total < limit) := by
  subst hdialogue
  rcases Nat.lt_or_ge total limit with htotal | hrefused
  · rcases Nat.lt_or_ge (cellLength total) (room s) with hroom | hroom
    · obtain ⟨base, s', m', hacquire, hcut, hstack⟩ := rule.takes cleared m h.stack htotal hroom
      rw [hacquire]
      have hbalanced : Balanced room Stack stop grants (⟨base, total, Word.minAlign⟩ :: blocks)
        s' provider := h.taken hcut hroom hstack
      rw [← List.append_nil grants] at hbalanced
      exact ⟨_, rfl, hfit, hbalanced, nofun, fun _ => htotal⟩
    · obtain ⟨next, hacquire, hnone, hgiven⟩ := rule.asks cleared m h.stack htotal hroom
      rw [hacquire] at hasks ⊢
      have hgrowth := TopSpace.growthFor_pos (cellLength total)
      have hlarge := TopSpace.lt_growthFor (cellLength total)
      obtain ⟨first, hfirst, hnext, hcontinues⟩ :=
        obtain_continues contiguous hfit hgrowth hasks.1 level
      cases hcontinues with
      | refused hstop =>
        obtain ⟨hrun, hinquiries⟩ := Dialogue.ask_once hfirst hnone
        rw [hinquiries]
        have hbalanced := h.congr_stop hstop
        rw [← List.append_nil grants] at hbalanced
        exact ⟨_, hrun, hnext, hbalanced, fun _ => ⟨rfl, rfl⟩, fun hsome => absurd rfl hsome⟩
      -- The rule speaks of a grant that begins where the last one ended, and this one does.
      | @granted bytes later events hblock hsize hstop =>
        have hlast : ∀ address ∈ regionEnd? stop grants provider, stop provider = address := by
          intro address haddress
          exact Option.some.inj (Option.ite_none_left_eq_some.mp haddress).2
        obtain ⟨base, s', m', hdone, hcut, hstack⟩ := hgiven _ hblock hlast hsize
        obtain ⟨hrun, hinquiries⟩ := Dialogue.ask_once hfirst hdone
        rw [hinquiries]
        have hbalanced : Balanced room Stack stop (grants ++ [⟨stop provider, bytes⟩])
            (⟨base, total, Word.minAlign⟩ :: blocks) s' later :=
          h.granted hcut (Nat.lt_of_lt_of_le hlarge hsize) hstop hstack
        exact ⟨_, hrun, hnext, hbalanced, nofun, fun _ => htotal⟩
  · rw [rule.refuses cleared s m hrefused]
    exact ⟨_, rfl, hfit, by simpa [Dialogue.inquiries, grantsOf] using h, fun _ => ⟨rfl, rfl⟩,
      fun hsome => absurd rfl hsome⟩

end Balanced

end RegionHeap.Sized

namespace RegionHeap.Growth.Break

open Sized.TopSpace (Suits)

structure Paced (unit : Nat) (process : Break) : Prop where
  unit : process.session.ensureReady.pageSize = unit
  pos : 0 < process.top
  multiple : process.top % 16 = 0

/-- Growth through a break is contiguous, and with pages of a multiple of sixteen bytes
all its grants suit an allocator with a top. -/
theorem contiguous {unit : Nat} (hpower : Word.isPowerOfTwo unit) (hword : unit < Word.bound)
    (hsixteen : 16 ∣ unit) : Provider.Contiguous unit top none Suits (Paced unit) where
  power := hpower
  word := hword
  pageSize hfit := hfit.unit
  grow := by
    intro process bytes hfit hpos hdvd hsigned
    have exact : Provider.Exact unit top none
      fun process : Break => process.session.ensureReady.pageSize = unit :=
        BreakSystem.exact contract hpower hword
    obtain ⟨reply, hgrow, hunit, hgrows, hrequests, hlines⟩ :=
      exact.grow hfit.unit hpos hdvd hsigned
    have hbytes := Nat.mod_eq_zero_of_dvd (Nat.dvd_trans hsixteen hdvd)
    obtain ⟨-, htop, hmultiple⟩ := hfit
    refine ⟨reply, hgrow, ?_, hgrows, hrequests, hlines⟩
    cases hgrows with
    | refused hstop => exact ⟨hunit, by dsimp only; omega, by dsimp only; omega⟩
    | granted hstop => exact ⟨hunit, by dsimp only; omega, by dsimp only; omega⟩
  given := by
    intro process reply base bytes hfit hdvd hgrow hanswer
    have hbytes := Nat.mod_eq_zero_of_dvd (Nat.dvd_trans hsixteen hdvd)
    have hmove : (process.advance bytes).1 = some base := by
      have hsystem : Provider.grow (bytes : Int) process = _ :=
        BreakSystem.grow_natCast bytes process
      rw [hgrow, Except.ok.injEq] at hsystem
      rw [hsystem] at hanswer
      exact hanswer
    rw [advance] at hmove
    split at hmove
    · rename_i hroom
      obtain rfl := Option.some.inj hmove
      have hmax : Word.max < Word.bound := by decide
      exact ⟨hfit.pos, hfit.multiple, hbytes, by dsimp only; omega⟩
    · cases hmove

end RegionHeap.Growth.Break
