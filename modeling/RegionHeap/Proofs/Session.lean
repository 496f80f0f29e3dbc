import RegionHeap.Session

/-!
# The page size of a session

Whatever the system reports, the page size is a power of two: the default is
one, and at the start anything else is passed over.
-/
namespace RegionHeap.Session

variable {session : Session}

theorem defaultPageSize_good :
    Word.isPowerOfTwo defaultPageSize ∧ defaultPageSize < Word.bound := by decide

theorem power_ensureReady (h : Word.isPowerOfTwo session.pageSize) :
    Word.isPowerOfTwo session.ensureReady.pageSize := by
  unfold ensureReady start readPageSize
  split
  · exact h
  · split
    · dsimp only [readSetting]
      split
      · assumption
      · exact defaultPageSize_good.1
    · exact h
    · exact h

structure Sound (session : Session) : Prop where
  power : Word.isPowerOfTwo session.pageSize
  word : session.pageSize < Word.bound
  reported : session.reported < Word.bound

theorem sound_cold (setting : Option (List UInt8)) {reported : Nat} (h : reported < Word.bound) :
    Sound { setting, reported } := ⟨defaultPageSize_good.1, defaultPageSize_good.2, h⟩

namespace Sound

theorem readPageSize (h : session.Sound) : session.readPageSize.Sound := by
  unfold Session.readPageSize
  split
  · rename_i hpower
    exact ⟨hpower, h.reported, h.reported⟩
  · exact ⟨defaultPageSize_good.1, defaultPageSize_good.2, h.reported⟩

theorem start (h : session.Sound) : session.start.Sound := by
  unfold Session.start
  split
  · have hstarting : Sound { session with phase := .starting } := ⟨h.power, h.word, h.reported⟩
    obtain ⟨hpower, hword, hreported⟩ := hstarting.readPageSize
    exact ⟨hpower, hword, hreported⟩
  · exact h
  · exact h

/-- Whoever asks for the page size is told a power of two, also if this starts the session. -/
theorem ensureReady (h : session.Sound) : session.ensureReady.Sound := by
  unfold Session.ensureReady
  split
  · exact h
  · exact h.start

end Sound

end RegionHeap.Session
