import RegionHeap.Proofs.Framed.Call

/-!
# Blocks and their headers belong together

A framed heap has integrity if its memory and its allocator agree with a
register: every address of the register is aligned, its header can be read
below it, and the block that the header describes is one the allocator calls
live; every live block is described by exactly one header; and no two of the
blocks share an address. An exchange of blocks by the allocator, followed by
writing the header of the new one, keeps this up, and so does any write into
the bytes of users.
-/
namespace RegionHeap.Framed

open Growth (Provider)
open Sized (Allocator Block Exchange)

variable {α ρ : Type} [Allocator α]

structure Header.Proper (header : Header) : Prop where
  power : Word.isPowerOfTwo header.align
  least : Word.minAlign ≤ header.align
  word : header.size + header.align < Word.bound

theorem Register.proper_headerFor {register : Register} {request : Request}
    (hnew : request.subject? = none)
    (hword : request.size + register.alignFor request < Word.bound) :
    (register.headerFor request).Proper := by
  have halign : (register.headerFor request).align = Header.alignFor _ :=
    Register.alignFor_of_new hnew
  refine ⟨?_, ?_, hword⟩
  · rw [halign]
    exact Header.isPowerOfTwo_alignFor _
  · rw [halign]
    exact Header.minAlign_le_alignFor _

/-- A user address with its header in memory and its block in the allocator. -/
structure Entry (heap : Framed α ρ) (user : Nat) (header : Header) : Prop
    extends header.Proper where
  above : header.align ≤ user
  aligned : user % header.align = 0
  read : Header.read heap.memory user = header
  live : Allocator.Live heap.allocator (header.block user)

structure Integrity (heap : Framed α ρ) (register : Register) : Prop where
  entry : ∀ {user header}, register[user]? = some header → heap.Entry user header
  owned : ∀ {block}, Allocator.Live heap.allocator block →
    ∃ user, ∃ header : Header, register[user]? = some header ∧ header.block user = block
  apart : ∀ {a b} {headerA headerB : Header}, register[a]? = some headerA →
    register[b]? = some headerB → a ≠ b → (headerA.block a).Apart (headerB.block b)

variable {heap : Framed α ρ} {register : Register} {user other base i : Nat}
  {header old : Header} {m : Memory}

namespace Header

theorem block_add (header : Header) (base : Nat) :
    header.block (base + header.align) = ⟨base, header.size + header.align, header.align⟩ := by
  rw [block, Nat.add_sub_cancel]

theorem has_user (habove : header.align ≤ user) (hi : i < header.size) :
    (header.block user).Has (user + i) := by
  simp only [block, Block.Has]
  omega

theorem has_header (hleast : Word.minAlign ≤ header.align) (habove : header.align ≤ user)
    {address : Nat} (hlow : user - width ≤ address) (hhigh : address < user) :
    (header.block user).Has address := by
  simp only [block, Block.Has, width, Word.minAlign] at *
  omega

theorem ne_of_apart (hleast : Word.minAlign ≤ header.align) (hold : Word.minAlign ≤ old.align)
    (habove : header.align ≤ user) (haboveOther : old.align ≤ other)
    (h : (header.block user).Apart (old.block other)) : user ≠ other := by
  simp only [block, Block.Apart, Word.minAlign] at *
  omega

end Header

namespace Entry

theorem width_le (h : heap.Entry user header) : Header.width ≤ user :=
  Nat.le_trans h.least h.above

theorem blockOf_eq_ok (h : heap.Entry user header) :
    blockOf user header = .ok (header.block user) :=
  Header.blockOf_eq_ok h.above h.word

theorem of_agrees {heap' : Framed α ρ} (h : heap.Entry user header)
    (hlive : Allocator.Live heap'.allocator (header.block user))
    (hbytes : ∀ {address}, user - Header.width ≤ address → address < user →
      heap'.memory.byte address = heap.memory.byte address) : heap'.Entry user header where
  toProper := h.toProper
  above := h.above
  aligned := h.aligned
  read := (Header.read_congr h.width_le hbytes).trans h.read
  live := hlive

end Entry

/-- Writing a proper header into an aligned block makes an entry of it. -/
theorem Header.Proper.entry (proper : header.Proper)
    (hread : heap.memory = header.write (base + header.align) m)
    (haligned : base % header.align = 0)
    (hlive : Allocator.Live heap.allocator ⟨base, header.size + header.align, header.align⟩) :
    heap.Entry (base + header.align) header where
  toProper := proper
  above := Nat.le_add_left _ _
  aligned := by rw [Nat.add_mod_right, haligned]
  read := by
    have hword := proper.word
    rw [hread, Header.read_write (by omega) (by omega)
      (Nat.le_trans proper.least (Nat.le_add_left _ _))]
  live := by rwa [Header.block_add]

namespace Integrity

variable {gone : Option Nat} {new : Option Block} {s' : α} {m' : Memory} {provider : ρ}

theorem serve_of_overflow [Provider ρ] {request : Request} (h : Integrity heap register)
    (hkeeps : request.releases = false) (hheld : ∀ user ∈ request.subject?, user ∈ register)
    (hword : Word.bound ≤ request.size + register.alignFor request) :
    heap.serve request = .ok ⟨none, heap, []⟩ := by
  apply serve_of_answered
  rcases Request.new_or_resize hkeeps with hnew | ⟨user, size, rfl⟩
  · rw [Call.opened_of_new register heap.memory hnew hkeeps, if_neg (Nat.not_lt.mpr hword)]
  · obtain ⟨old, hold⟩ := Record.mem_iff.mp (hheld user rfl)
    rw [Register.alignFor_resize hold, Request.size] at hword
    rw [Call.opened_resize, (h.entry hold).read, if_neg (Nat.not_lt.mpr hword)]

theorem ne_address (h : Integrity heap register) (huser : register[user]? = some header)
    (hother : register[other]? = some old) (hne : user ≠ other) {j : Nat} (hi : i < header.size)
    (hj : j < old.size) : user + i ≠ other + j := by
  intro heq
  have hhas : (old.block other).Has (user + i) := by
    rw [heq]
    exact Header.has_user (h.entry hother).above hj
  exact (h.apart huser hother hne).not_has (Header.has_user (h.entry huser).above hi) hhas

/-- No address but the one that goes has the block that is taken back. -/
theorem ne_block? (h : Integrity heap register) (huser : register[user]? = some header)
    (hne : gone ≠ some user) : some (header.block user) ≠ register.block? gone := by
  intro heq
  obtain ⟨address, rfl, hblock⟩ := Option.bind_eq_some_iff.mp heq.symm
  obtain ⟨old, hold, hsame⟩ := Option.map_eq_some_iff.mp hblock
  have hapart := h.apart huser hold fun heq => hne (heq ▸ rfl)
  rw [hsame] at hapart
  have entry := h.entry huser
  exact Header.ne_of_apart entry.least entry.least entry.above entry.above hapart rfl

theorem owned_of_ne (h : Integrity heap register) {block : Block}
    (hlive : Allocator.Live heap.allocator block) (hne : some block ≠ register.block? gone) :
    ∃ user, ∃ header : Header, gone ≠ some user ∧ register[user]? = some header ∧
      header.block user = block := by
  obtain ⟨user, header, huser, rfl⟩ := h.owned hlive
  refine ⟨user, header, ?_, huser, rfl⟩
  intro heq
  subst heq
  exact hne (Register.block?_of_some huser).symm

theorem without (h : Integrity heap register)
    (hex : Exchange (register.block? gone) none heap.allocator heap.memory s' m') :
    Integrity { heap with allocator := s', memory := m', provider := provider }
      (register.without gone) where
  entry := by
    intro user header huser
    rw [Register.getElem?_without] at huser
    split at huser
    · cases huser
    · rename_i hne
      have entry := h.entry huser
      have hstays := h.ne_block? huser hne
      exact entry.of_agrees ((hex.live _).mpr (.inr ⟨entry.live, hstays⟩)) fun hlow hhigh =>
        hex.bytes entry.live hstays (Header.has_header entry.least entry.above hlow hhigh)
  owned := by
    intro block hlive
    rcases (hex.live block).mp hlive with hnew | ⟨hlive, hne⟩
    · cases hnew
    · obtain ⟨user, header, hstays, huser, rfl⟩ := h.owned_of_ne hlive hne
      exact ⟨user, header, by rw [Register.getElem?_without, if_neg hstays, huser], rfl⟩
  apart := by
    intro a b headerA headerB ha hb
    rw [Register.getElem?_without] at ha hb
    split at ha
    · cases ha
    · split at hb
      · cases hb
      · exact h.apart ha hb

section granted

variable (h : Integrity heap register) (proper : header.Proper)
  (hex : Exchange (register.block? gone) (some ⟨base, header.size + header.align, header.align⟩)
    heap.allocator heap.memory s' m')

include h hex

theorem apart_new (huser : register[user]? = some old) (hne : gone ≠ some user) :
    (header.block (base + header.align)).Apart (old.block user) := by
  rw [Header.block_add]
  exact hex.apart rfl (h.entry huser).live (h.ne_block? huser hne)

include proper

theorem ne_new (huser : register[user]? = some old) (hne : gone ≠ some user) :
    base + header.align ≠ user := by
  have entry := h.entry huser
  exact Header.ne_of_apart proper.least entry.least (Nat.le_add_left _ _) entry.above
    (h.apart_new hex huser hne)

/-- Neither the exchange nor the new header touches a block that stays. -/
theorem byte_granted (huser : register[user]? = some old) (hne : gone ≠ some user) {address : Nat}
    (hhas : (old.block user).Has address) :
    (header.write (base + header.align) m').byte address = heap.memory.byte address := by
  have houtside := (h.apart_new hex huser hne).symm.not_has hhas
  rw [Header.byte_write (Nat.le_trans proper.least (Nat.le_add_left _ _))]
  · exact hex.bytes (h.entry huser).live (h.ne_block? huser hne) hhas
  · by_contra hinside
    exact houtside
      (Header.has_header proper.least (Nat.le_add_left _ _) (by omega) (by omega))

/-- Handing out a block, and taking one back for it, if any, is recorded in the register. -/
theorem granted :
    Integrity { heap with
        allocator := s'
        memory := header.write (base + header.align) m'
        provider := provider }
      ((register.without gone).insert (base + header.align) header) where
  entry := by
    intro user old huser
    rcases Register.insert_without_eq_some.mp huser with ⟨rfl, rfl⟩ | ⟨-, hstays, hold⟩
    · exact proper.entry rfl (hex.aligned rfl) ((hex.live _).mpr (.inl rfl))
    · have entry := h.entry hold
      have hlive := (hex.live _).mpr (.inr ⟨entry.live, h.ne_block? hold hstays⟩)
      apply entry.of_agrees hlive
      intro address hlow hhigh
      exact h.byte_granted proper hex hold hstays
        (Header.has_header entry.least entry.above hlow hhigh)
  owned := by
    intro block hlive
    rcases (hex.live block).mp hlive with hnew | ⟨hlive, hne⟩
    · obtain rfl := Option.some.inj hnew
      exact ⟨base + header.align, header, by rw [Record.getElem?_insert, if_pos rfl],
        Header.block_add ..⟩
    · obtain ⟨user, old, hstays, hold, rfl⟩ := h.owned_of_ne hlive hne
      have hdiffer := h.ne_new proper hex hold hstays
      exact ⟨user, old, Register.insert_without_eq_some.mpr (.inr ⟨hdiffer, hstays, hold⟩), rfl⟩
  apart := by
    intro a b headerA headerB ha hb hne
    rcases Register.insert_without_eq_some.mp ha with ⟨rfl, rfl⟩ | ⟨-, hstaysA, holdA⟩
    · rcases Register.insert_without_eq_some.mp hb with ⟨rfl, rfl⟩ | ⟨-, hstaysB, holdB⟩
      · exact absurd rfl hne
      · exact h.apart_new hex holdB hstaysB
    · rcases Register.insert_without_eq_some.mp hb with ⟨rfl, rfl⟩ | ⟨-, hstaysB, holdB⟩
      · exact (h.apart_new hex holdA hstaysA).symm
      · exact h.apart holdA holdB hne

end granted

theorem write (h : Integrity heap register) {m : Memory}
    (hbytes : ∀ address, (∀ (user : Nat) header, register[user]? = some header →
      ¬(user ≤ address ∧ address < user + header.size)) →
      m.byte address = heap.memory.byte address) :
    Integrity { heap with memory := m } register where
  entry := by
    intro user header huser
    have entry := h.entry huser
    refine entry.of_agrees entry.live fun {address} hlow hhigh => hbytes address ?_
    intro other old hother ⟨hstart, hstop⟩
    have hhas := Header.has_header entry.least entry.above hlow hhigh
    by_cases hsame : user = other
    · omega
    · apply (h.apart huser hother hsame).not_has hhas
      have huserByte := Header.has_user (i := address - other) (h.entry hother).above (by omega)
      rwa [Nat.add_sub_cancel' hstart] at huserByte
  owned := h.owned
  apart := h.apart

end Integrity

end RegionHeap.Framed
