import RegionHeap.Framed.Call
import RegionHeap.Proofs.Checked
import RegionHeap.Proofs.Memory
import RegionHeap.Proofs.Word

/-!
# What a header says

A header that was written below a user address is read back there, and writing
it touches the sixteen bytes below that address only. Read as a description of
a block, it names the block that starts one alignment below the address and
ends where the user's bytes end.
-/
namespace RegionHeap.Framed

open Checked

namespace Header

variable {header : Header} {user wish address : Nat} {m m' : Memory}

/-- The block around a user address, as the sized allocator knows it. -/
def block (header : Header) (user : Nat) : Sized.Block :=
  ⟨user - header.align, header.size + header.align, header.align⟩

theorem isPowerOfTwo_alignFor (wish : Nat) : Word.isPowerOfTwo (alignFor wish) := by
  unfold alignFor
  split
  · rcases Nat.le_total wish Word.minAlign with h | h
    · rw [Nat.max_eq_right h]
      decide
    · rwa [Nat.max_eq_left h]
  · decide

theorem minAlign_le_alignFor (wish : Nat) : Word.minAlign ≤ alignFor wish := by
  unfold alignFor
  split
  · exact Nat.le_max_right _ _
  · exact Nat.le_refl _

theorem dvd_alignFor (h : Word.isPowerOfTwo wish) : wish ∣ alignFor wish := by
  apply Word.dvd_of_isPowerOfTwo h (isPowerOfTwo_alignFor wish)
  rw [alignFor, if_pos h]
  exact Nat.le_max_left _ _

theorem byte_write (huser : width ≤ user) (h : user ≤ address ∨ address < user - width) :
    (header.write user m).byte address = m.byte address := by
  simp only [write, Memory.byte_writeWord, width] at *
  rw [if_neg (by omega), if_neg (by omega)]

theorem read_write (hsize : header.size < Word.bound) (halign : header.align < Word.bound)
    (huser : width ≤ user) : read (header.write user m) user = header := by
  simp only [width] at huser
  have hsizeRead : (header.write user m).readWord (user - width) = header.size := by
    rw [write, Memory.readWord_writeWord_of_disjoint _ _ (by simp only [width]; omega),
      Memory.readWord_writeWord _ _ hsize]
  have halignRead : (header.write user m).readWord (user - 8) = header.align :=
    Memory.readWord_writeWord _ _ halign
  rw [read, hsizeRead, halignRead]

theorem read_congr (huser : width ≤ user)
    (h : ∀ {address}, user - width ≤ address → address < user → m'.byte address = m.byte address) :
    read m' user = read m user := by
  simp only [width] at huser h
  have hsize : m'.readWord (user - width) = m.readWord (user - width) :=
    Memory.readWord_congr fun hi => h (by simp only [width]; omega) (by simp only [width]; omega)
  have halign : m'.readWord (user - 8) = m.readWord (user - 8) :=
    Memory.readWord_congr fun hi => h (by omega) (by omega)
  rw [read, read, hsize, halign]

/-- A header that is read somewhere has the bytes that are there. -/
theorem byte_write_of_read (huser : width ≤ user) (hread : read m user = header)
    (hlow : user - width ≤ address) (hhigh : address < user) :
    (header.write user m').byte address = m.byte address := by
  subst hread
  simp only [width] at huser hlow
  simp only [write, read, width, Memory.byte_writeWord]
  split
  · rename_i halign
    rw [Memory.shiftRight_readWord m (user - 8) (by omega), Nat.add_sub_cancel' halign.1]
  · rw [if_pos ⟨hlow, by omega⟩, Memory.shiftRight_readWord m (user - 16) (by omega),
      Nat.add_sub_cancel' hlow]

theorem blockOf_eq_ok (habove : header.align ≤ user)
    (hword : header.size + header.align < Word.bound) :
    blockOf user header = .ok (header.block user) := by
  have hbase : Word.sub user header.align = .ok (user - header.align) := if_pos habove
  have htotal : Word.add header.size header.align = .ok (header.size + header.align) :=
    if_pos hword
  rw [blockOf, hbase, ok_bind, htotal, ok_bind, pure_eq_ok, block]

end Header

end RegionHeap.Framed
