import RegionHeap.Host.Ascending
import RegionHeap.Proofs.Checked
import RegionHeap.Proofs.Host.Allocator
import RegionHeap.Proofs.Record
import RegionHeap.Proofs.Word

/-!
# The ascending host allocator keeps the contract

Every live block ends below the first address that was never used, and no byte
belongs to two of them. A new block lies above all others, and what is taken
back leaves the others where they are, so both remain true.
-/
namespace RegionHeap.Ascending

open Checked
open HostAllocator (Apart Exchange Live Obtained Resized)

variable {host : Ascending} {m : Memory} {align base old oldSize size : Nat}

structure Sound (host : Ascending) : Prop where
  below : ∀ {base size}, Live host base size → base + size < host.next
  apart : Apart host

theorem sound_empty : Sound {} where
  below := by simp [Live]
  apart := by simp [Apart, Live]

theorem live_forget {other otherSize : Nat} :
    Live (host.forget old) other otherSize ↔ Live host other otherSize ∧ some other ≠ some old := by
  change (host.sizes.erase old)[other]? = some otherSize ↔ host.sizes[other]? = some otherSize ∧ _
  rw [Record.getElem?_erase]
  by_cases heq : old = other
  · simp [heq]
  · simp [heq, Ne.symm heq]

theorem sound_forget (h : Sound host) (old : Nat) : Sound (host.forget old) where
  below hlive := h.below (live_forget.mp hlive).1
  apart ha hb := h.apart (live_forget.mp ha).1 (live_forget.mp hb).1

theorem exchange_forget (host : Ascending) (old : Nat) (m : Memory) :
    Exchange (some old) none host m (host.forget old) m where
  live other otherSize := by simp [live_forget]
  fresh := by simp
  bytes _ _ _ _ := rfl

theorem sound_insert (h : Sound host) (hbase : host.next ≤ base) :
    Sound ⟨base + size + 1, host.sizes.insert base size⟩ ∧
      Exchange none (some (base, size)) host m ⟨base + size + 1, host.sizes.insert base size⟩ m := by
  have hnew : ∀ other otherSize,
      Live (⟨base + size + 1, host.sizes.insert base size⟩ : Ascending) other otherSize ↔
        base = other ∧ size = otherSize ∨ Live host other otherSize := by
    intro other otherSize
    change (host.sizes.insert base size)[other]? = _ ↔ _ ∨ host.sizes[other]? = _
    rw [Record.getElem?_insert]
    by_cases heq : base = other
    · subst heq
      have hnone : host.sizes[base]? ≠ some otherSize := fun hlive => by
        have := h.below hlive
        omega
      simp [hnone]
    · simp [heq]
  refine ⟨⟨?_, ?_⟩, ?_, ?_, fun _ _ _ _ => rfl⟩
  · intro other otherSize hlive
    rcases (hnew ..).mp hlive with ⟨rfl, rfl⟩ | hlive
    · exact Nat.lt_succ_self _
    · have := h.below hlive
      dsimp only
      omega
  · intro a b sizeA sizeB ha hb hne i j hi hj
    rcases (hnew ..).mp ha with ⟨rfl, rfl⟩ | ha <;> rcases (hnew ..).mp hb with ⟨rfl, rfl⟩ | hb
    · exact absurd rfl hne
    · have := h.below hb
      omega
    · have := h.below ha
      omega
    · exact h.apart ha hb hne hi hj
  · intro other otherSize
    simp [hnew, eq_comm]
  · intro other otherSize heq
    obtain ⟨rfl, rfl⟩ := Prod.mk.inj (Option.some.inj heq)
    refine .inr fun others hlive => ?_
    have := h.below hlive
    omega

theorem obtained_place (h : Sound host) (hpos : 0 < align) (m : Memory) (size : Nat) :
    Obtained Sound align size host m (host.place align size m) := by
  unfold place
  dsimp only
  split
  · obtain ⟨hsound, hexchange⟩ := sound_insert h (Word.le_ceiling host.next hpos)
    refine ⟨hsound, hexchange, fun hbase => ?_⟩
    obtain rfl := Option.some.inj hbase
    exact Word.ceiling_mod host.next align
  · exact ⟨h, .refl host m, by simp⟩

theorem obtained_acquire (h : Sound host) (m : Memory) (size : Nat) :
    Obtained Sound Word.minAlign size host m (host.acquire size m) :=
  obtained_place h (by decide) m size

theorem obtained_acquireAligned (h : Sound host) (m : Memory) (align size : Nat) :
    Obtained Sound align size host m (host.acquireAligned align size m) ∧
      (¬(Word.isPowerOfTwo align ∧ align % HostAllocator.addressSize = 0) →
        (host.acquireAligned align size m).base = none) := by
  unfold acquireAligned
  split
  · rename_i hgood
    have hdvd : align ∣ max align Word.minAlign := Word.dvd_max hgood.1 (by decide)
    have hpos : 0 < max align Word.minAlign := Nat.lt_of_lt_of_le (by decide) (Nat.le_max_right ..)
    have hobtained := obtained_place h hpos m size
    refine ⟨⟨hobtained.sound, hobtained.exchange, fun hbase => ?_⟩, fun hbad => absurd hgood hbad⟩
    exact Nat.mod_eq_zero_of_dvd
      (Nat.dvd_trans hdvd (Nat.dvd_of_mod_eq_zero (hobtained.aligned hbase)))
  · exact ⟨⟨h, .refl host m, by simp⟩, fun _ => rfl⟩

theorem obtained_acquireZeroed (h : Sound host) (m : Memory) (count size : Nat) :
    Obtained Sound Word.minAlign (count * size) host m (host.acquireZeroed count size m) ∧
      ∀ {base}, (host.acquireZeroed count size m).base = some base → count * size < Word.bound ∧
        ∀ {i}, i < count * size → (host.acquireZeroed count size m).memory.byte (base + i) = 0 := by
  unfold acquireZeroed
  split
  · exact ⟨⟨h, .refl host m, by simp⟩, by simp⟩
  · rename_i bytes hbytes
    obtain ⟨hword, rfl⟩ := Word.mul?_eq_some.mp hbytes
    have hobtained := obtained_acquire h m (count * size)
    dsimp only
    split
    · rename_i hnone
      exact ⟨hobtained, by simp [hnone]⟩
    · rename_i base hbase
      obtain ⟨hcleared, hzero⟩ := hobtained.clear hobtained.sound.apart hbase
      refine ⟨hcleared, fun hsome => ⟨hword, ?_⟩⟩
      obtain rfl := Option.some.inj (hbase.symm.trans hsome)
      exact hzero

theorem sizeOf_of_live (h : Live host old oldSize) : host.sizeOf old = .ok oldSize := by
  change host.sizes[old]? = some oldSize at h
  rw [sizeOf, h]

theorem memory_place : (host.place align size m).memory = m := by
  unfold place
  dsimp only
  split <;> rfl

/-- A block that is moved is given up once its successor is there. -/
theorem exchange_moved {next : Ascending} (hne : base ≠ old)
    (h : Exchange none (some (base, size)) host m next m) :
    Exchange (some old) (some (base, size)) host m (next.forget old) m where
  live other otherSize := by
    rw [live_forget, h.live]
    constructor
    · rintro ⟨hnew | ⟨hlive, -⟩, hother⟩
      · exact .inl hnew
      · exact .inr ⟨hlive, hother⟩
    · rintro (hnew | ⟨hlive, hother⟩)
      · obtain ⟨rfl, rfl⟩ := Prod.mk.inj (Option.some.inj hnew)
        exact ⟨.inl rfl, fun heq => hne (Option.some.inj heq)⟩
      · exact ⟨.inr ⟨hlive, nofun⟩, hother⟩
  fresh hnew := .inr ((h.fresh hnew).resolve_left nofun)
  bytes _ _ _ _ := rfl

theorem resize_spec (h : Sound host) (hlive : Live host old oldSize) (hpos : 0 < size)
    (m : Memory) :
    ∃ outcome, resize (some old) size host m = .ok outcome ∧
      Resized Sound old oldSize size host m outcome := by
  have hobtained := obtained_acquire h m size
  have hmemory : (host.acquire size m).memory = m := memory_place
  simp only [resize, sizeOf_of_live hlive, ok_bind, if_neg (Nat.ne_of_gt hpos), pure_eq_ok]
  cases hbase : (host.acquire size m).base with
  | none => exact ⟨_, rfl, h, .refl host m, by simp, by simp⟩
  | some base =>
    have hexchange := hobtained.exchange
    rw [hbase, hmemory] at hexchange
    have hne : base ≠ old := by
      rintro rfl
      exact (hexchange.fresh rfl).elim nofun (· oldSize hlive)
    have hsound := sound_forget hobtained.sound old
    refine ⟨_, rfl, hsound, ?_, fun hsome => hobtained.aligned (hbase.trans hsome), ?_⟩
    · dsimp only
      rw [hmemory]
      exact (exchange_moved hne hexchange).update hsound.apart (Nat.min_le_right ..) _
    · intro moved hmoved i hi
      obtain rfl := Option.some.inj hmoved
      dsimp only
      rw [hmemory, Memory.byte_copy, if_pos (by omega), Nat.add_sub_cancel_left]

theorem meets_contract : HostAllocator.Contract Sound where
  empty := ⟨sound_empty, by simp [Live, HostAllocator.empty]⟩
  size h ha hb := Option.some.inj (ha.symm.trans hb)
  apart h := h.apart
  acquire h _ := obtained_acquire h _ _
  acquireAligned h _ _ := obtained_acquireAligned h _ _ _
  acquireZeroed h _ _ := obtained_acquireZeroed h _ _ _
  resizeNothing := rfl
  resize h hlive hpos _ := resize_spec h hlive hpos _
  resizeAway := by
    intro s m old oldSize h hlive
    refine ⟨s.forget old, m, ?_, sound_forget h old, exchange_forget s old m⟩
    change resize (some old) 0 s m = _
    rw [resize, sizeOf_of_live hlive]
    rfl
  releaseNothing := rfl
  release := by
    intro s m old oldSize h hlive
    refine ⟨s.forget old, m, ?_, sound_forget h old, exchange_forget s old m⟩
    change release (some old) s m = _
    rw [release, sizeOf_of_live hlive]
    rfl

/-- The addresses that are left suffice for `n` bytes and an alignment. -/
def HasRoom (n : Nat) (host : Ascending) : Prop :=
  n + Word.minAlign < sizeLimit ∧ host.next + n + Word.minAlign ≤ Word.signedMax

instance (n : Nat) (host : Ascending) : Decidable (host.HasRoom n) :=
  inferInstanceAs (Decidable (_ ∧ _))

section room

variable {n : Nat} (h : host.HasRoom n)

include h

theorem base_place (hpos : 0 < align) (hfits : align + size ≤ n + Word.minAlign) (m : Memory) :
    (host.place align size m).base ≠ none := by
  obtain ⟨hlimit, hnext⟩ := h
  have hceiling := Word.ceiling_lt host.next hpos
  have hroom : size + align < sizeLimit ∧
      Word.ceiling host.next align + size < Word.signedMax := by omega
  rw [place, if_pos hroom]
  exact Option.some_ne_none _

theorem base_acquire (hsize : size ≤ n) (m : Memory) : (host.acquire size m).base ≠ none :=
  base_place h (by decide) (by omega) m

theorem base_acquireZeroed {count : Nat} (hword : count * size < Word.bound)
    (hsize : count * size ≤ n) (m : Memory) : (host.acquireZeroed count size m).base ≠ none := by
  have hbytes : Word.mul? count size = some (count * size) := if_pos hword
  obtain ⟨base, hbase⟩ := Option.ne_none_iff_exists'.mp (base_acquire h hsize m)
  simp only [acquireZeroed, hbytes, hbase]
  exact Option.some_ne_none _

theorem base_resize (hlive : Live host old oldSize) (hpos : 0 < size) (hsize : size ≤ n)
    {outcome : Outcome Ascending} (hresize : host.resize (some old) size m = .ok outcome) :
    outcome.base ≠ none := by
  obtain ⟨base, hbase⟩ := Option.ne_none_iff_exists'.mp (base_acquire h hsize m)
  simp only [resize, sizeOf_of_live hlive, ok_bind, if_neg (Nat.ne_of_gt hpos), hbase] at hresize
  obtain rfl := Except.ok.inj hresize
  exact Option.some_ne_none _

theorem plenty (m : Memory) : HostAllocator.Plenty n host m where
  acquire hsize := base_acquire h hsize m
  acquireAligned := by
    intro align size htaken hsize
    have hpos := Word.pos_of_isPowerOfTwo htaken.1
    change (host.acquireAligned align size m).base ≠ none
    rw [acquireAligned, if_pos htaken]
    exact base_place h (by omega) (by omega) m
  acquireZeroed hword hsize := base_acquireZeroed h hword hsize m
  resize hlive hpos hsize hresize := base_resize h hlive hpos hsize hresize

end room

end RegionHeap.Ascending
