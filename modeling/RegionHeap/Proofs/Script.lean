import Mathlib.Data.List.Forall2
import RegionHeap.Proofs.Contents

/-!
# Scripts

A script is a sequence of actions on numbered slots. It never names an address,
so the same script can be played on any heap, and what it comes to can be drawn
without one: a picture has the sizes of the blocks in the slots, and of each
byte either what it is or that nobody can know. A byte is known once it was
written or obtained as zero, and for as long as its block keeps it. Every heap
that keeps its contract, and refuses what the picture says and nothing else,
shows the picture of its script; so two such heaps cannot be told apart by any
byte that is known.
-/
namespace RegionHeap.Script

open Checked

inductive Action where
  /-- Put a new block into an empty slot. -/
  | obtain (slot : Nat) (request : Request)
  /-- Resize what is in a slot, or obtain a block if it is empty. -/
  | resize (slot size : Nat)
  | release (slot : Nat)
  | write (slot offset : Nat) (bytes : List UInt8)
  | read (slot offset len : Nat)
deriving Repr, DecidableEq

/-- What comes of an action. One that makes no sense for its slot is skipped. -/
inductive Answer (β γ : Type) where
  | skipped
  | placed (block : β)
  | refused
  | released
  | wrote
  | bytes (content : γ)
deriving Repr, DecidableEq

namespace Action

def Words : Action → Prop
  | obtain _ request => request.Words
  | resize _ size => size < Word.bound
  | release _ | write .. | read .. => True

instance (action : Action) : Decidable action.Words :=
  match action with
  | .obtain _ request => inferInstanceAs (Decidable request.Words)
  | .resize _ _ => inferInstanceAs (Decidable (_ < _))
  | .release _ | .write .. | .read .. => inferInstanceAs (Decidable True)

/-- The request of the action, if it obtains a block by one. -/
def new? : Action → Option Request
  | obtain _ request => some request
  | _ => none

end Action

/-- A request for a new block. -/
def IsNew (request : Request) : Prop := request.subject? = none ∧ request.releases = false

instance (request : Request) : Decidable (IsNew request) :=
  inferInstanceAs (Decidable (_ ∧ _))

section tables

structure Table (σ : Type) where
  client : Client σ
  slots : Nat → Option Nat

namespace Table

variable {σ : Type}

def blank (heap : σ) : Table σ := ⟨⟨heap, ∅⟩, fun _ => none⟩

/-- What is in a slot, byte for byte. -/
def contents [Heap σ] (table : Table σ) (slot : Nat) : Option (List UInt8) :=
  (table.slots slot).bind table.client.contents

/-- The request that the action makes, if it makes one. -/
def request? (table : Table σ) : Action → Option Request
  | .obtain slot request => if table.slots slot = none ∧ IsNew request then some request else none
  | .resize slot size => some (.resize (table.slots slot) size)
  | .release slot => some (.release (table.slots slot))
  | .write .. | .read .. => none

variable [Heap σ]

/-- What is said of the answer to a request, and what is in the slot then. -/
def settled (request : Request) (before answer : Option Nat) :
    Answer Nat (List UInt8) × Option Nat :=
  match answer with
  | some block => (.placed block, some block)
  | none => if request.releases then (.released, none) else (.refused, before)

def serve (table : Table σ) (slot : Nat) (request : Request) :
    Checked (Reply (Answer Nat (List UInt8)) (Table σ)) := do
  let reply ← table.client.serve request
  let after := settled request (table.slots slot) reply.answer
  return ⟨after.1, ⟨reply.state, Function.update table.slots slot after.2⟩, reply.events⟩

/-- Use a range of what is in a slot, if there is such a range. -/
def access (table : Table σ) (slot offset len : Nat)
    (use : Nat → Checked (Answer Nat (List UInt8) × Client σ)) :
    Checked (Reply (Answer Nat (List UInt8)) (Table σ)) :=
  match table.slots slot with
  | none => return ⟨.skipped, table, []⟩
  | some block =>
    if table.client.covers block offset len then do
      let (answer, client) ← use block
      return ⟨answer, { table with client := client }, []⟩
    else
      return ⟨.skipped, table, []⟩

def step (action : Action) (table : Table σ) :
    Checked (Reply (Answer Nat (List UInt8)) (Table σ)) :=
  match action with
  | .obtain slot _ | .resize slot _ | .release slot =>
    match table.request? action with
    | some request => table.serve slot request
    | none => return ⟨.skipped, table, []⟩
  | .write slot offset bytes =>
    table.access slot offset bytes.length fun block => do
      let client ← table.client.update block offset bytes.length fun address =>
        bytes.getD (address - (block + offset)) 0
      return (.wrote, client)
  | .read slot offset len =>
    table.access slot offset len fun block => do
      return (.bytes (← table.client.read block offset len), table.client)

/-- Play a script and collect the answers. -/
def run : List Action → Table σ → Checked (Reply (List (Answer Nat (List UInt8))) (Table σ))
  | [], table => return ⟨[], table, []⟩
  | action :: rest, table => do
    let first ← table.step action
    let others ← run rest first.state
    return ⟨first.answer :: others.answer, others.state, first.events ++ others.events⟩

/-- Whenever a request is made in the script, the condition holds of it and the heap. -/
def Throughout (condition : Request → σ → Prop) : List Action → Table σ → Prop
  | [], _ => True
  | action :: rest, table =>
    (∀ request ∈ table.request? action, condition request table.client.heap) ∧
      match table.step action with
      | .ok reply => Throughout condition rest reply.state
      | .error _ => True

variable {condition condition' : Request → σ → Prop}

instance decidableThroughout [∀ request heap, Decidable (condition request heap)] :
    (actions : List Action) → (table : Table σ) → Decidable (table.Throughout condition actions)
  | [], _ => inferInstanceAs (Decidable True)
  | action :: rest, table =>
    have : Decidable (match table.step action with
        | .ok reply => Throughout condition rest reply.state
        | .error _ => True) :=
      match table.step action with
      | .ok reply => decidableThroughout rest reply.state
      | .error _ => inferInstanceAs (Decidable True)
    inferInstanceAs (Decidable (_ ∧ _))

theorem Throughout.mono {actions : List Action} {table : Table σ}
    (h : table.Throughout condition actions)
    (himp : ∀ {request heap}, condition request heap → condition' request heap) :
    table.Throughout condition' actions := by
  induction actions generalizing table with
  | nil => trivial
  | cons action rest ih =>
    obtain ⟨hasked, hafter⟩ := h
    refine ⟨fun request hrequest => himp (hasked request hrequest), ?_⟩
    cases hstep : table.step action with
    | error fault => trivial
    | ok reply =>
      rw [hstep] at hafter
      exact ih hafter

end Table

end tables

/-- All that has come of a script. -/
abbrev Played (σ : Type) := Reply (List (Answer Nat (List UInt8))) (Table σ)

section pictures

/-- What is known of a block: its size, and of some bytes what they are. -/
structure Sketch where
  size : Nat
  known : Nat → Option UInt8

namespace Sketch

structure Tells (sketch : Sketch) (bytes : List UInt8) : Prop where
  length : bytes.length = sketch.size
  byte : ∀ {i value}, i < sketch.size → sketch.known i = some value → bytes[i]? = some value

def new (request : Request) : Sketch :=
  ⟨request.size, fun _ => if request.zeroes then some 0 else none⟩

/-- Only the bytes that were there before are known. -/
def resized (sketch : Sketch) (size : Nat) : Sketch :=
  ⟨size, fun i => if i < sketch.size then sketch.known i else none⟩

def written (sketch : Sketch) (offset : Nat) (bytes : List UInt8) : Sketch :=
  ⟨sketch.size, fun i =>
    if offset ≤ i ∧ i < offset + bytes.length then some (bytes.getD (i - offset) 0)
    else sketch.known i⟩

/-- The part of the block that is read. -/
def part (sketch : Sketch) (offset len : Nat) : Sketch :=
  ⟨len, fun i => sketch.known (offset + i)⟩

def Covers (sketch : Sketch) (offset len : Nat) : Prop := len = 0 ∨ offset + len ≤ sketch.size

instance (sketch : Sketch) (offset len : Nat) : Decidable (sketch.Covers offset len) :=
  inferInstanceAs (Decidable (_ ∨ _))

end Sketch

/-- What is known of each block in a slot. -/
abbrev Picture := Nat → Option Sketch

namespace Picture

def blank : Picture := fun _ => none

/-- What a heap shows that refuses these requests and nothing else. -/
def step (refuses : Request → Bool) (action : Action) (picture : Picture) :
    Answer Unit Sketch × Picture :=
  match action with
  | .obtain slot request =>
    if picture slot = none ∧ IsNew request then
      if refuses request then (.refused, picture)
      else (.placed (), Function.update picture slot (some (.new request)))
    else (.skipped, picture)
  | .resize slot size =>
    let sketch := match picture slot with
      | none => .new (.resize none size)
      | some sketch => sketch.resized size
    (.placed (), Function.update picture slot (some sketch))
  | .release slot => (.released, Function.update picture slot none)
  | .write slot offset bytes =>
    match picture slot with
    | none => (.skipped, picture)
    | some sketch =>
      if sketch.Covers offset bytes.length then
        (.wrote, Function.update picture slot (some (sketch.written offset bytes)))
      else (.skipped, picture)
  | .read slot offset len =>
    match picture slot with
    | none => (.skipped, picture)
    | some sketch =>
      if sketch.Covers offset len then (.bytes (sketch.part offset len), picture)
      else (.skipped, picture)

def run (refuses : Request → Bool) : List Action → Picture → List (Answer Unit Sketch) × Picture
  | [], picture => ([], picture)
  | action :: rest, picture =>
    let first := step refuses action picture
    let others := run refuses rest first.2
    (first.1 :: others.1, others.2)

end Picture

inductive Answer.Tells : Answer Unit Sketch → Answer Nat (List UInt8) → Prop
  | skipped : Tells .skipped .skipped
  | placed {block : Nat} : Tells (.placed ()) (.placed block)
  | refused : Tells .refused .refused
  | released : Tells .released .released
  | wrote : Tells .wrote .wrote
  | bytes {sketch : Sketch} {content : List UInt8} :
      sketch.Tells content → Tells (.bytes sketch) (.bytes content)

/-- What has come of the script is what the picture says, in the answers and in the slots. -/
structure Shows {σ : Type} [Heap σ] (refuses : Request → Bool) (actions : List Action)
    (played : Played σ) : Prop where
  answers : List.Forall₂ Answer.Tells (Picture.blank.run refuses actions).1 played.answer
  slots : ∀ slot, Option.Rel Sketch.Tells ((Picture.blank.run refuses actions).2 slot)
    (played.state.contents slot)

end pictures

namespace Sketch

variable {sketch : Sketch} {bytes : List UInt8} {request : Request} {size offset len : Nat}

theorem tells_new (hlength : bytes.length = request.size)
    (hzeroed : request.zeroes → bytes = List.replicate request.size 0) :
    (new request).Tells bytes where
  length := hlength
  byte := by
    intro i value hi hknown
    simp only [new, Option.ite_none_right_eq_some, Option.some.injEq] at hi hknown
    rw [hzeroed hknown.1, ← hknown.2, List.getElem?_replicate, if_pos hi]

theorem Tells.resized {after : List UInt8} (h : sketch.Tells bytes) (hlength : after.length = size)
    (hkept : after.take (min bytes.length size) = bytes.take (min bytes.length size)) :
    (sketch.resized size).Tells after where
  length := hlength
  byte := by
    intro i value hi hknown
    simp only [Sketch.resized, Option.ite_none_right_eq_some] at hi hknown
    have hbound : i < min bytes.length size := by
      have hsize := h.length
      omega
    have hsame := congrArg (·[i]?) hkept
    simp only [List.getElem?_take, if_pos hbound] at hsame
    rw [hsame]
    exact h.byte hknown.1 hknown.2

theorem Tells.written (h : sketch.Tells bytes) (offset : Nat) (data : List UInt8)
    {f : Nat → UInt8} (hf : ∀ i, offset ≤ i → f i = data.getD (i - offset) 0) :
    (sketch.written offset data).Tells (Contents.overwrite bytes offset data.length f) where
  length := by
    rw [Contents.overwrite, List.length_mapIdx]
    exact h.length
  byte := by
    intro i value hi hknown
    simp only [Sketch.written] at hi hknown
    have hinside : i < bytes.length := h.length ▸ hi
    rw [Contents.overwrite, List.getElem?_mapIdx, List.getElem?_eq_getElem hinside]
    split at hknown
    · rename_i hrange
      simp only [Option.map_some, if_pos hrange, hf i hrange.1]
      exact hknown
    · rename_i hrange
      simp only [Option.map_some, if_neg hrange]
      rw [← List.getElem?_eq_getElem hinside]
      exact h.byte hi hknown

theorem Tells.part {m : Memory} {block : Nat} (h : sketch.Tells (m.bytes block sketch.size))
    (hcovers : sketch.Covers offset len) :
    (sketch.part offset len).Tells (m.bytes (block + offset) len) where
  length := Memory.length_bytes ..
  byte := by
    intro i value hi hknown
    simp only [Sketch.part] at hi hknown
    have hinside : offset + i < sketch.size := by
      rcases hcovers with hnone | hroom
      · omega
      · omega
    have hbyte := h.byte hinside hknown
    rw [Memory.getElem?_bytes m block hinside, ← Nat.add_assoc] at hbyte
    rw [Memory.getElem?_bytes m _ hi]
    exact hbyte

end Sketch

inductive Shown (contents : Contents) : Option Sketch → Option Nat → Prop
  | nothing : Shown contents none none
  | block {sketch : Sketch} {bytes : List UInt8} {block : Nat} :
      contents block = some bytes → sketch.Tells bytes → Shown contents (some sketch) (some block)

theorem Shown.of_same {contents next : Contents} {sketch : Option Sketch} {block : Option Nat}
    (h : Shown contents sketch block)
    (hsame : ∀ address, block = some address → next address = contents address) :
    Shown next sketch block := by
  cases h with
  | nothing => exact .nothing
  | block hbytes htells => exact .block ((hsame _ rfl).trans hbytes) htells

theorem Shown.nothing_or_block {contents : Contents} {sketch : Option Sketch}
    {block : Option Nat} (h : Shown contents sketch block) :
    block = none ∧ sketch = none ∨ ∃ address known bytes, block = some address ∧
      sketch = some known ∧ contents address = some bytes ∧ known.Tells bytes := by
  cases h with
  | nothing => exact .inl ⟨rfl, rfl⟩
  | block hbytes htells => exact .inr ⟨_, _, _, rfl, rfl, hbytes, htells⟩

theorem distinct_update {slots : Nat → Option Nat} {slot : Nat} {block : Option Nat}
    (h : ∀ {a b address}, slots a = some address → slots b = some address → a = b)
    (hothers : ∀ other address, other ≠ slot → slots other = some address →
      block ≠ some address) {a b address : Nat}
    (ha : Function.update slots slot block a = some address)
    (hb : Function.update slots slot block b = some address) : a = b := by
  simp only [Function.update_apply] at ha hb
  split at ha <;> split at hb
  · rename_i hslot hslot'
    rw [hslot, hslot']
  · rename_i hne
    exact absurd ha (hothers b address hne hb)
  · rename_i hne _
    exact absurd hb (hothers a address hne ha)
  · exact h ha hb

variable {σ : Type} [Heap σ]

/-- The table shows the picture: every block in a slot is a block of its own. -/
structure Depicts (Fits : σ → Std.TreeMap Nat Nat → Prop) (table : Table σ) (picture : Picture) :
    Prop where
  fits : Fits table.client.heap table.client.held
  distinct : ∀ {a b block}, table.slots a = some block → table.slots b = some block → a = b
  shown : ∀ slot, Shown table.client.contents (picture slot) (table.slots slot)

/-- In the states that fit, and if this is supplied, the heap refuses these requests and no
others. -/
def Refuses (Fits : σ → Std.TreeMap Nat Nat → Prop) (refuses : Request → Bool)
    (supplied : Request → σ → Prop) : Prop :=
  ∀ {heap held request reply}, Fits heap held → request.Words →
    (∀ block ∈ request.subject?, block ∈ held) → request.releases = false →
    supplied request heap → Heap.serve request heap = .ok reply →
    (reply.answer = none ↔ refuses request)

variable {Fits : σ → Std.TreeMap Nat Nat → Prop} {table : Table σ} {picture : Picture}
  {refuses : Request → Bool} {supplied : Request → σ → Prop} {slot offset len size : Nat}
  {request : Request}

theorem Table.step_obtain (hslot : table.slots slot = none) (hnew : IsNew request) :
    table.step (.obtain slot request) = table.serve slot request := by
  have hrequest : table.request? (.obtain slot request) = some request := if_pos ⟨hslot, hnew⟩
  simp only [Table.step, hrequest]

namespace Depicts

theorem exists_bytes (h : Depicts Fits table picture) {block : Nat}
    (hblock : table.slots slot = some block) :
    ∃ sketch bytes, picture slot = some sketch ∧ table.client.contents block = some bytes ∧
      sketch.Tells bytes := by
  rcases (h.shown slot).nothing_or_block with ⟨hnone, -⟩ | ⟨address, sketch, bytes, haddress, hrest⟩
  · cases hnone.symm.trans hblock
  · obtain rfl := Option.some.inj (haddress.symm.trans hblock)
    exact ⟨sketch, bytes, hrest⟩

theorem mem_held (h : Depicts Fits table picture) {block : Nat}
    (hblock : table.slots slot = some block) : block ∈ table.client.held := by
  obtain ⟨_, bytes, -, hbytes, -⟩ := h.exists_bytes hblock
  exact Record.mem_iff.mpr ⟨_, (Client.of_contents_eq_some hbytes).1⟩

theorem of_same (h : Depicts Fits table picture) {next : Client σ}
    (hfits : Fits next.heap next.held) (hsame : next.contents = table.client.contents) :
    Depicts Fits { table with client := next } picture where
  fits := hfits
  distinct := h.distinct
  shown slot := (h.shown slot).of_same fun address _ => congrFun hsame address

theorem update (h : Depicts Fits table picture) {next : Client σ} {block : Option Nat}
    {sketch : Option Sketch} (hfits : Fits next.heap next.held)
    (hothers : ∀ other address, other ≠ slot → table.slots other = some address →
      next.contents address = table.client.contents address ∧ block ≠ some address)
    (hshown : Shown next.contents sketch block) :
    Depicts Fits ⟨next, Function.update table.slots slot block⟩
      (Function.update picture slot sketch) where
  fits := hfits
  distinct := distinct_update h.distinct fun other address hne hother =>
    (hothers other address hne hother).2
  shown := by
    intro other
    simp only [Function.update_apply]
    split
    · exact hshown
    · rename_i hne
      exact (h.shown other).of_same fun address haddress =>
        (hothers other address hne haddress).1

section serves

variable (contract : Heap.Contract Fits) (h : Depicts Fits table picture)

include contract h

theorem served (hwords : request.Words)
    (hsubject : ∀ block ∈ request.subject?, table.slots slot = some block) :
    ∃ reply, table.client.serve request = .ok reply ∧
      Fits reply.state.heap reply.state.held ∧ (request.releases → reply.answer = none) ∧
      Contents.Step (.served request reply.answer) table.client.contents
        reply.state.contents := by
  obtain ⟨reply, hreply⟩ := Client.serve_returns contract h.fits hwords fun block hblock =>
    h.mem_held (hsubject block hblock)
  obtain ⟨met, hfits, -⟩ := Client.serve_met contract h.fits hwords hreply
  exact ⟨reply, hreply, hfits, met.silent, Client.step_serve contract h.fits hwords hreply⟩

theorem serve_release (slot : Nat) :
    ∃ reply, table.serve slot (.release (table.slots slot)) = .ok reply ∧
      reply.answer = .released ∧
      Depicts Fits reply.state (Function.update picture slot none) := by
  have hwords : (Request.release (table.slots slot)).Words := trivial
  obtain ⟨reply, hreply, hfits, hsilent, hstep⟩ :=
    h.served contract hwords (fun _ hblock => hblock)
  have hnone : reply.answer = none := hsilent rfl
  rw [hnone] at hstep
  refine ⟨_, bind_eq_ok.mpr ⟨reply, hreply, rfl⟩, by rw [hnone]; rfl, ?_⟩
  rw [hnone]
  refine h.update hfits (fun other address hne hother => ⟨?_, nofun⟩) .nothing
  rw [hstep.of_release, Contents.without_apply, if_neg]
  exact fun hslot => hne (h.distinct hother hslot)

theorem serve_new (decides : Refuses Fits refuses supplied) (hnew : IsNew request)
    (hwords : request.Words) (hsupplied : supplied request table.client.heap) (slot : Nat) :
    ∃ reply, table.serve slot request = .ok reply ∧
      if refuses request then reply.answer = .refused ∧ reply.state.contents = table.contents ∧
        Depicts Fits reply.state picture
      else (∃ block, reply.answer = .placed block ∧ reply.state.slots slot = some block) ∧
        Depicts Fits reply.state (Function.update picture slot (some (.new request))) := by
  have hsubject : ∀ block ∈ request.subject?, table.slots slot = some block := by
    simp [hnew.1]
  obtain ⟨reply, hreply, hfits, -, hstep⟩ := h.served contract hwords hsubject
  have hnone : reply.answer = none ↔ refuses request := by
    obtain ⟨hheld, inner, hinner, rfl⟩ := Client.serve_eq_ok.mp hreply
    exact decides h.fits hwords hheld hnew.2 hsupplied hinner
  refine ⟨_, bind_eq_ok.mpr ⟨reply, hreply, rfl⟩, ?_⟩
  cases hanswer : reply.answer with
  | none =>
    rw [if_pos (hnone.mp hanswer)]
    rw [hanswer] at hstep
    rw [Table.settled, hnew.2, if_neg Bool.false_ne_true, Function.update_eq_self]
    have hsame := hstep.eq_of_refused hnew.2
    refine ⟨rfl, funext fun other => ?_, h.of_same hfits hsame⟩
    rw [Table.contents, hsame, Table.contents]
  | some block =>
    rw [if_neg (by simp [← hnone, hanswer])]
    rw [hanswer] at hstep
    obtain ⟨hfree, bytes, hlength, hzeroed, hnext⟩ := hstep.of_new hnew.1
    refine ⟨⟨block, rfl, Function.update_self ..⟩,
      h.update hfits (fun other address _ hother => ?_) ?_⟩
    · have hne : address ≠ block := by
        rintro rfl
        obtain ⟨_, known, -, hknown, -⟩ := h.exists_bytes hother
        cases hfree.symm.trans hknown
      rw [hnext, Function.update_of_ne hne]
      exact ⟨rfl, fun heq => hne (Option.some.inj heq).symm⟩
    · refine .block ?_ (Sketch.tells_new hlength hzeroed)
      rw [hnext, Function.update_self]

theorem serve_resize (decides : Refuses Fits refuses supplied)
    (hnever : ∀ block size, refuses (.resize block size) = false) {old : Nat} {sketch : Sketch}
    (hold : table.slots slot = some old) (hsketch : picture slot = some sketch)
    (hword : size < Word.bound) (hsupplied : supplied (.resize (some old) size) table.client.heap) :
    ∃ reply, table.serve slot (.resize (some old) size) = .ok reply ∧
      (∃ block, reply.answer = .placed block) ∧
      Depicts Fits reply.state (Function.update picture slot (some (sketch.resized size))) := by
  have hwords : (Request.resize (some old) size).Words := hword
  obtain ⟨reply, hreply, hfits, -, hstep⟩ := h.served contract hwords fun block hblock =>
    hold.trans hblock
  obtain ⟨block, hanswer⟩ : ∃ block, reply.answer = some block := by
    obtain ⟨hheld, inner, hinner, rfl⟩ := Client.serve_eq_ok.mp hreply
    have hnone := decides h.fits hwords hheld rfl hsupplied hinner
    rw [hnever] at hnone
    exact Option.ne_none_iff_exists'.mp fun hrefused => Bool.false_ne_true (hnone.mp hrefused)
  rw [hanswer] at hstep
  obtain ⟨before, after, hbefore, hblock, hlength, hkept, hnext⟩ := hstep.of_resize
  refine ⟨_, bind_eq_ok.mpr ⟨reply, hreply, rfl⟩, ?_⟩
  rw [hanswer]
  refine ⟨⟨block, rfl⟩, h.update hfits (fun other address hne hother => ?_) ?_⟩
  · have hneOld : old ≠ address := fun heq => hne (h.distinct hother (heq ▸ hold))
    have hneBlock : address ≠ block := by
      rintro rfl
      -- The block may have stayed where it was, so that it was not free before.
      rcases hblock with heq | hfree
      · exact hneOld heq.symm
      · obtain ⟨_, known, -, hknown, -⟩ := h.exists_bytes hother
        cases hfree.symm.trans hknown
    rw [hnext, Function.update_of_ne hneBlock, Contents.without_apply, if_neg]
    · exact ⟨rfl, fun heq => hneBlock (Option.some.inj heq).symm⟩
    · exact fun heq => hneOld (Option.some.inj heq)
  · obtain ⟨known, bytes, hknown, hbytes, htells⟩ := h.exists_bytes hold
    obtain rfl := Option.some.inj (hsketch.symm.trans hknown)
    obtain rfl := Option.some.inj (hbefore.symm.trans hbytes)
    refine .block ?_ (htells.resized hlength hkept)
    rw [hnext, Function.update_self]

end serves

section accesses

variable {block : Nat} {sketch : Sketch} {bytes : List UInt8}

theorem covers_iff (hbytes : table.client.contents block = some bytes)
    (htells : sketch.Tells bytes) (offset len : Nat) :
    table.client.covers block offset len ↔ sketch.Covers offset len := by
  obtain ⟨hsize, -⟩ := Client.of_contents_eq_some hbytes
  rw [Client.covers_iff, hsize, Sketch.Covers, ← htells.length]
  simp

/-- What comes of the action is what the picture says. -/
def Follows (Fits : σ → Std.TreeMap Nat Nat → Prop) (refuses : Request → Bool) (table : Table σ)
    (picture : Picture) (action : Action) : Prop :=
  ∃ reply, table.step action = .ok reply ∧
    Answer.Tells (picture.step refuses action).1 reply.answer ∧
    Depicts Fits reply.state (picture.step refuses action).2

theorem follows_write (contract : Heap.Contract Fits) (h : Depicts Fits table picture)
    (slot offset : Nat) (data : List UInt8) :
    Follows Fits refuses table picture (.write slot offset data) := by
  unfold Follows
  rcases (h.shown slot).nothing_or_block with
    ⟨hslot, hsketch⟩ | ⟨block, sketch, bytes, hslot, hsketch, hbytes, htells⟩
  · simp only [Table.step, Table.access, hslot, Picture.step, hsketch]
    exact ⟨_, rfl, .skipped, h⟩
  · have hcovers := covers_iff hbytes htells offset data.length
    by_cases hinside : sketch.Covers offset data.length
    · obtain ⟨next, hnext⟩ : ∃ next, table.client.update block offset data.length (fun address =>
          data.getD (address - (block + offset)) 0) = .ok next :=
        ⟨_, Client.update_eq_ok.mpr ⟨hcovers.mpr hinside, rfl⟩⟩
      simp only [Table.step, Table.access, hslot, Picture.step, hsketch, if_pos hinside,
        if_pos (hcovers.mpr hinside), hnext]
      have hcontents := (Client.step_update contract h.fits hnext).of_write hbytes
      have hsame : Function.update table.slots slot (some block) = table.slots := by
        rw [← hslot, Function.update_eq_self]
      have depicts : Depicts Fits ⟨next, Function.update table.slots slot (some block)⟩
          (Function.update picture slot (some (sketch.written offset data))) := by
        refine h.update (Client.fits_update contract h.fits hnext) ?_ ?_
        · intro other address hne hother
          have hneBlock : address ≠ block := fun heq => hne (h.distinct hother (heq ▸ hslot))
          rw [hcontents, Function.update_of_ne hneBlock]
          exact ⟨rfl, fun heq => hneBlock (Option.some.inj heq).symm⟩
        · refine .block (by rw [hcontents, Function.update_self]) ?_
          exact htells.written offset data fun i _ => by rw [Nat.add_sub_add_left]
      rw [hsame] at depicts
      exact ⟨_, rfl, .wrote, depicts⟩
    · simp only [Table.step, Table.access, hslot, Picture.step, hsketch, if_neg hinside,
        if_neg (mt hcovers.mp hinside)]
      exact ⟨_, rfl, .skipped, h⟩

theorem follows_read (h : Depicts Fits table picture) (slot offset len : Nat) :
    Follows Fits refuses table picture (.read slot offset len) := by
  unfold Follows
  rcases (h.shown slot).nothing_or_block with
    ⟨hslot, hsketch⟩ | ⟨block, sketch, bytes, hslot, hsketch, hbytes, htells⟩
  · simp only [Table.step, Table.access, hslot, Picture.step, hsketch]
    exact ⟨_, rfl, .skipped, h⟩
  · have hcovers := covers_iff hbytes htells offset len
    by_cases hinside : sketch.Covers offset len
    · have hread : table.client.read block offset len =
          .ok ((Heap.memory table.client.heap).bytes (block + offset) len) := by
        rw [Client.read, require_of .strayAccess (hcovers.mpr hinside)]
        rfl
      simp only [Table.step, Table.access, hslot, Picture.step, hsketch, if_pos hinside,
        if_pos (hcovers.mpr hinside), hread]
      refine ⟨_, rfl, .bytes ?_, h⟩
      obtain ⟨-, hseen⟩ := Client.of_contents_eq_some hbytes
      rw [htells.length] at hseen
      rw [hseen] at htells
      exact htells.part hinside
    · simp only [Table.step, Table.access, hslot, Picture.step, hsketch, if_neg hinside,
        if_neg (mt hcovers.mp hinside)]
      exact ⟨_, rfl, .skipped, h⟩

end accesses

theorem blank {heap : σ} (hfits : Fits heap ∅) : Depicts Fits (.blank heap) .blank where
  fits := hfits
  distinct := nofun
  shown _ := .nothing

theorem rel_contents (h : Depicts Fits table picture) (slot : Nat) :
    Option.Rel Sketch.Tells (picture slot) (table.contents slot) := by
  rcases (h.shown slot).nothing_or_block with
    ⟨hslot, hsketch⟩ | ⟨block, sketch, bytes, hslot, hsketch, hbytes, htells⟩
  · rw [hsketch, Table.contents, hslot]
    exact .none
  · rw [hsketch, Table.contents, hslot, Option.bind_some, hbytes]
    exact .some htells

theorem slots_eq_none_iff (h : Depicts Fits table picture) (slot : Nat) :
    table.slots slot = none ↔ picture slot = none := by
  rcases (h.shown slot).nothing_or_block with
    ⟨hslot, hsketch⟩ | ⟨block, sketch, bytes, hslot, hsketch, -⟩
  · exact iff_of_true hslot hsketch
  · simp [hslot, hsketch]

section follows

variable (contract : Heap.Contract Fits) (decides : Refuses Fits refuses supplied)

include contract decides

theorem follows_obtain {request : Request} (h : Depicts Fits table picture) (slot : Nat)
    (hwords : request.Words)
    (hsupplied : ∀ asked ∈ table.request? (.obtain slot request),
      supplied asked table.client.heap) :
    Follows Fits refuses table picture (.obtain slot request) := by
  unfold Follows
  by_cases hnew : table.slots slot = none ∧ IsNew request
  · have hrequest : table.request? (.obtain slot request) = some request := if_pos hnew
    have hpicture : picture slot = none ∧ IsNew request :=
      ⟨(h.slots_eq_none_iff slot).mp hnew.1, hnew.2⟩
    obtain ⟨reply, hreply, hafter⟩ :=
      h.serve_new contract decides hnew.2 hwords (hsupplied request hrequest) slot
    simp only [Table.step_obtain hnew.1 hnew.2, Picture.step, if_pos hpicture]
    refine ⟨reply, hreply, ?_⟩
    split at hafter
    · rename_i hrefuses
      obtain ⟨hanswer, -, depicts⟩ := hafter
      rw [if_pos hrefuses, hanswer]
      exact ⟨.refused, depicts⟩
    · rename_i hrefuses
      obtain ⟨⟨block, hanswer, -⟩, depicts⟩ := hafter
      rw [if_neg hrefuses, hanswer]
      exact ⟨.placed, depicts⟩
  · have hrequest : table.request? (.obtain slot request) = none := if_neg hnew
    have hpicture : ¬(picture slot = none ∧ IsNew request) := by
      rwa [← h.slots_eq_none_iff]
    simp only [Table.step, hrequest, Picture.step, if_neg hpicture]
    exact ⟨_, rfl, .skipped, h⟩

/-- A resize of an empty slot asks for a new block. -/
theorem follows_resize (hnever : ∀ block size, refuses (.resize block size) = false)
    (h : Depicts Fits table picture) (slot : Nat) {size : Nat} (hword : size < Word.bound)
    (hsupplied : supplied (.resize (table.slots slot) size) table.client.heap) :
    Follows Fits refuses table picture (.resize slot size) := by
  unfold Follows
  simp only [Table.step, Table.request?, Picture.step]
  rcases (h.shown slot).nothing_or_block with
    ⟨hslot, hsketch⟩ | ⟨old, sketch, bytes, hslot, hsketch, -⟩
  · have hnew : IsNew (.resize none size) := ⟨rfl, rfl⟩
    have hwords : (Request.resize none size).Words := hword
    rw [hslot] at hsupplied
    obtain ⟨reply, hreply, hafter⟩ := h.serve_new contract decides hnew hwords hsupplied slot
    rw [if_neg (by simp [hnever])] at hafter
    obtain ⟨⟨block, hanswer, -⟩, depicts⟩ := hafter
    rw [hslot, hsketch]
    refine ⟨reply, hreply, ?_, depicts⟩
    rw [hanswer]
    exact .placed
  · rw [hslot] at hsupplied
    obtain ⟨reply, hreply, ⟨block, hanswer⟩, depicts⟩ :=
      h.serve_resize contract decides hnever hslot hsketch hword hsupplied
    rw [hslot, hsketch]
    refine ⟨reply, hreply, ?_, depicts⟩
    rw [hanswer]
    exact .placed

/-- Each action does to the table what it does to its picture. -/
theorem follows (hnever : ∀ block size, refuses (.resize block size) = false)
    (h : Depicts Fits table picture) {action : Action} (hwords : action.Words)
    (hsupplied : ∀ request ∈ table.request? action, supplied request table.client.heap) :
    Follows Fits refuses table picture action := by
  cases action with
  | obtain slot request => exact follows_obtain contract decides h slot hwords hsupplied
  | resize slot size =>
    exact follows_resize contract decides hnever h slot hwords (hsupplied _ rfl)
  | release slot =>
    obtain ⟨reply, hreply, hanswer, depicts⟩ := h.serve_release contract slot
    refine ⟨reply, hreply, ?_, depicts⟩
    rw [hanswer]
    exact .released
  | write slot offset bytes => exact follows_write contract h slot offset bytes
  | read slot offset len => exact follows_read h slot offset len

end follows

theorem follows_run (contract : Heap.Contract Fits) (decides : Refuses Fits refuses supplied)
    (hnever : ∀ block size, refuses (.resize block size) = false) (h : Depicts Fits table picture)
    {actions : List Action} (hwords : ∀ action ∈ actions, action.Words)
    (hsupplied : table.Throughout supplied actions) :
    ∃ reply, table.run actions = .ok reply ∧
      List.Forall₂ Answer.Tells (picture.run refuses actions).1 reply.answer ∧
      Depicts Fits reply.state (picture.run refuses actions).2 := by
  induction actions generalizing table picture with
  | nil => exact ⟨_, rfl, .nil, h⟩
  | cons action rest ih =>
    obtain ⟨hasked, hrest⟩ := hsupplied
    obtain ⟨first, hfirst, htells, hafter⟩ := h.follows contract decides hnever
      (hwords action List.mem_cons_self) hasked
    rw [hfirst] at hrest
    obtain ⟨others, hothers, htold, hend⟩ :=
      ih hafter (fun other hother => hwords other (List.mem_cons_of_mem _ hother)) hrest
    refine ⟨⟨first.answer :: others.answer, others.state, first.events ++ others.events⟩, ?_,
      .cons htells htold, hend⟩
    rw [Table.run, hfirst, ok_bind, hothers, ok_bind, pure_eq_ok]

end Depicts

/-- A script played on a heap without blocks shows its picture. -/
theorem run_shows (contract : Heap.Contract Fits) (decides : Refuses Fits refuses supplied)
    (hnever : ∀ block size, refuses (.resize block size) = false) {heap : σ} (hfits : Fits heap ∅)
    {actions : List Action} (hwords : ∀ action ∈ actions, action.Words)
    (hsupplied : (Table.blank heap).Throughout supplied actions) :
    ∃ played, (Table.blank heap).run actions = .ok played ∧ Shows refuses actions played ∧
      Depicts Fits played.state (Picture.blank.run refuses actions).2 := by
  obtain ⟨played, hplayed, htells, depicts⟩ :=
    (Depicts.blank hfits).follows_run contract decides hnever hwords hsupplied
  exact ⟨played, hplayed, ⟨htells, depicts.rel_contents⟩, depicts⟩

end RegionHeap.Script
