import RegionHeap.Proofs.Framed.Shared.Steps

/-!
# Runs of threads that share a heap

Whatever steps the threads take, and in whatever order, each call reads the header
that was last written below its address, the allocator is told of live blocks
exactly, nobody's block is changed by anybody else, and no step is a fault. What
the threads are told is what a single client would be told that did all deeds in the
order in which the lock was taken. That the client is told the same by the very same
allocator needs that it does not look into blocks that it is not asked about.
-/
namespace RegionHeap.Framed

open Growth (Break Provider)
open Sized (Allocator Contract Discreet TopSpace)

/-- The block that is taken to the allocator, by its address and the header that was read. -/
def Critical.taken? : Critical → Option (Nat × Header)
  | acquire _ _ _ => none
  | resize user old _ _ => some (user, old)
  | release user header => some (user, header)

namespace Call

/-- A call for a block enters the lock with the header that it has read. -/
theorem taken_of_opened {m : Memory} {request : Request} {critical : Critical} {user : Nat}
    {old : Header} (h : opened m request = entering critical)
    (htaken : critical.taken? = some (user, old)) :
    request.subject? = some user ∧ old = Header.read m user := by
  cases hkeeps : request.releases with
  | true =>
    cases request with
    | release block =>
      cases block with
      | none => cases h
      | some released =>
        obtain rfl := entering.inj h
        cases htaken
        exact ⟨rfl, rfl⟩
    | _ => cases hkeeps
  | false =>
    rcases Request.new_or_resize hkeeps with hnew | ⟨resized, size, rfl⟩
    · rw [opened_of_new ∅ m hnew hkeeps] at h
      split at h
      · obtain rfl := entering.inj h
        cases htaken
      · cases h
    · rw [opened_resize] at h
      split at h
      · obtain rfl := entering.inj h
        cases htaken
        exact ⟨rfl, rfl⟩
      · cases h

end Call

namespace Shared

variable {α ρ : Type} [Allocator α] [Provider ρ] {n : Nat} {Sound : α → ρ → Memory → Prop}
  {Fit : ρ → Prop} {start : Framed α ρ} {first s next : Shared α ρ n} {m : Memory}

structure Safe (s : Shared α ρ n) : Prop where
  /-- The header that a call is about to read is the last one that was written there, and the
  one that belongs to the block after what was done. -/
  read : ∀ {thread request asked user},
    s.activities.get thread = .calling request (.requested asked) →
    asked.subject? = some user →
    s.written[user]? = some (Header.read s.client.heap.memory user) ∧
      s.register[user]? = some (Header.read s.client.heap.memory user)
  /-- The block that a call takes to the allocator is live there under that description. -/
  exact : ∀ {thread request critical user old},
    s.activities.get thread = .calling request (.entering critical) →
    critical.taken? = some (user, old) →
    s.register[user]? = some old ∧ ∃ block, blockOf user old = .ok block ∧
      Allocator.Live s.client.heap.allocator block
  /-- What the users allow is no fault, and leaves the blocks of other threads alone. -/
  goes : ∀ {move}, s.Allows move →
    ∃ next, s.perform move = .ok next ∧ s.Isolated move.thread next
  /-- What a thread has been told, and is going to be, is what it has done. -/
  told : ∀ thread, s.told.get thread ++ (s.activities.get thread).owed = s.deedsOf thread
  /-- A single client might see the same after the same deeds. -/
  legal : Contents.Run s.deeds s.client.contents

theorem Mirrors.safe (contract : Contract Sound) (reliable : Provider.Reliable Fit)
    (h : s.Mirrors Sound Fit start m) : s.Safe where
  read := by
    intro thread request asked user hactivity hsubject
    have proceeds := h.proceeds thread
    rw [hactivity] at proceeds
    obtain ⟨rfl, -, howns⟩ := proceeds
    obtain ⟨header, hheader⟩ := h.owned (howns user hsubject)
    have hframed : (s.activities.get thread).framed? = none := by rw [hactivity]; rfl
    rw [h.read_eq (howns user hsubject) hframed hheader]
    refine ⟨h.written hheader fun other hother => ?_, hheader⟩
    obtain rfl := (howns user hsubject).eq (h.owns_of_framed hother).1
    cases hframed.symm.trans hother
  exact := by
    intro thread request critical user old hactivity htaken
    have proceeds := h.proceeds thread
    rw [hactivity] at proceeds
    obtain ⟨hopened, -, howns⟩ := proceeds
    obtain ⟨hsubject, rfl⟩ := Call.taken_of_opened hopened htaken
    obtain ⟨header, hheader⟩ := h.owned (howns user hsubject)
    have entry := h.intact.entry hheader
    have hread : Header.read m user = header := entry.read
    rw [hread]
    exact ⟨hheader, _, entry.blockOf_eq_ok, entry.live⟩
  goes := by
    intro move hallows
    obtain ⟨next, _, hnext, -, isolated⟩ := h.perform contract reliable hallows
    exact ⟨next, hnext, isolated⟩
  told := h.told
  legal := h.contents_eq ▸ h.contents

theorem mirrors_initial (contract : Contract Sound) (fresh : start.Fresh Sound Fit) :
    (initial start n).Mirrors Sound Fit start start.memory := by
  have hidle : ∀ thread, (initial start n).activities.get thread = .idle := fun thread =>
    Record.get_replicate _
  exact {
    intact := fresh.intact contract
    sizes := fun _ => rfl
    contents := .start
    alone := fun _ => .start
    owned := by
      intro thread user howns
      cases howns
    alike := fun _ => rfl
    proceeds := by
      intro thread
      rw [hidle]
      trivial
    written := by
      intro user header hheader
      cases hheader
    told := by
      intro thread
      rw [hidle]
      change (Vector.replicate n []).get thread ++ [] = []
      rw [Record.get_replicate, List.append_nil] }

theorem Reaches.mirrors (contract : Contract Sound) (reliable : Provider.Reliable Fit)
    (fresh : start.Fresh Sound Fit) (h : (initial start n).Reaches s) :
    ∃ m, s.Mirrors Sound Fit start m := by
  induction h with
  | start => exact ⟨_, mirrors_initial contract fresh⟩
  | step _ hallows hstep ih =>
    obtain ⟨m, mirrors⟩ := ih
    obtain ⟨next, m', hnext, mirrorsNext, -⟩ := mirrors.perform contract reliable hallows
    obtain rfl := Except.ok.inj (hstep.symm.trans hnext)
    exact ⟨m', mirrorsNext⟩

/-- Take these steps, as long as the users allow them. -/
def follow : List (Move n) → Shared α ρ n → Option (Shared α ρ n)
  | [], s => some s
  | move :: rest, s =>
    if s.Allows move then (s.perform move).toOption.bind (follow rest) else none

theorem Reaches.follow {moves : List (Move n)} (h : first.Reaches s)
    (hfollow : Shared.follow moves s = some next) : first.Reaches next := by
  induction moves generalizing s with
  | nil =>
    obtain rfl := Option.some.inj hfollow
    exact h
  | cons move rest ih =>
    rw [Shared.follow] at hfollow
    split at hfollow
    · rename_i hallows
      cases hperform : s.perform move with
      | error fault =>
        rw [hperform] at hfollow
        cases hfollow
      | ok middle =>
        rw [hperform] at hfollow
        exact ih (.step h hallows hperform) hfollow
    · cases hfollow

/-- Threads that share a heap are safe from each other, whatever they do to what they own and
in whatever order they take their steps; and a single client that does the same, each call when
it held the lock, has the same answers and sees the same bytes. -/
theorem safety_of_run (contract : Contract Sound) (reliable : Provider.Reliable Fit)
    (fresh : start.Fresh Sound Fit) (h : (initial start n).Reaches s) :
    s.Safe ∧ (Discreet Sound → ∃ client, Client.Run ⟨start, ∅⟩ s.deeds client ∧
      client.held = s.client.held ∧ client.contents = s.client.contents) := by
  obtain ⟨m, mirrors⟩ := h.mirrors contract reliable fresh
  exact ⟨mirrors.safe contract reliable, fun discreet =>
    ⟨s.settled m, mirrors.alone discreet, rfl, mirrors.contents_eq.symm⟩⟩

/-- While one thread has a block without a header, another gets one, writes into it, and
hands it over. -/
def gap : List (Move 2) :=
  [.start 0 (.allocate 10), .advance 0, .advance 0,
    .start 1 (.allocateZeroed 3 5), .advance 1, .advance 1, .advance 1, .advance 1,
    .write 1 0x10000000050 0 15 fun _ => 7, .handOver 1 0x10000000050 0]

theorem safety_of_run_gap : ∃ s, (initial onBreak 2).Reaches s ∧
    (s.activities.get 0).framed? = some 0x10000000020 ∧ s.Owns 0 0x10000000050 ∧ s.Safe ∧
    ∃ client, Client.Run ⟨onBreak, ∅⟩ s.deeds client ∧ client.contents = s.client.contents := by
  have hcomputed : ((follow gap (initial onBreak 2)).map fun s =>
      ((s.activities.get 0).framed?, s.owners[0x10000000050]?)) =
        some (some 0x10000000020, some 0) := by decide +kernel
  obtain ⟨s, hfollow, hs⟩ := Option.map_eq_some_iff.mp hcomputed
  obtain ⟨hframed, howns⟩ := Prod.mk.inj hs
  have hreaches : (initial onBreak 2).Reaches s := Reaches.start.follow hfollow
  obtain ⟨safe, halone⟩ :=
    safety_of_run TopSpace.meets_contract Break.reliable onBreak_fresh hreaches
  obtain ⟨client, hrun, -, hcontents⟩ := halone TopSpace.discreet
  exact ⟨s, hreaches, hframed, howns, safe, client, hrun, hcontents⟩

end Shared

end RegionHeap.Framed
