import RegionHeap.Proofs.Framed.Header
import RegionHeap.Proofs.Heap

/-!
# The register of headers

A register says which header belongs below which user address. No heap keeps
one: it is worked out from what a client has asked and been told, and says what
the heap ought to have in memory. A new block has the requested size and the
alignment in force for the wish; a resized one keeps the alignment that it had.
-/
namespace RegionHeap.Framed

/-- The headers of the held blocks by their user addresses. -/
abbrev Register := Std.TreeMap Nat Header

namespace Register

variable {register : Register} {gone answer : Option Nat} {request : Request} {header : Header}

/-- The alignment in force for a request: the old one for a block that there is already. -/
def alignFor (register : Register) (request : Request) : Nat :=
  match request.subject?.bind (register[·]?) with
  | some old => old.align
  | none => Header.alignFor (request.wish?.getD Word.minAlign)

/-- The header of the block by which a request is met. -/
def headerFor (register : Register) (request : Request) : Header where
  size := request.size
  align := register.alignFor request

/-- The register without an address, if one is given. -/
def without (register : Register) : Option Nat → Register
  | none => register
  | some user => register.erase user

/-- The register after a request was answered. -/
def after (register : Register) (request : Request) (answer : Option Nat) : Register :=
  let rest := register.without (request.ended? answer)
  match answer with
  | none => rest
  | some user => rest.insert user (register.headerFor request)

/-- The register that a sequence of deeds leads to. -/
def ofDeeds (deeds : List Deed) : Register :=
  deeds.foldl (fun register deed =>
    match deed with
    | .served request answer => register.after request answer
    | .wrote .. => register) ∅

/-- A record of held blocks has the sizes of the register. -/
def Sizes (register : Register) (held : Std.TreeMap Nat Nat) : Prop :=
  ∀ user : Nat, held[user]? = register[user]?.map Header.size

/-- The block of an address of the register, if one is given. -/
def block? (register : Register) (gone : Option Nat) : Option Sized.Block :=
  gone.bind fun user => register[user]?.map (Header.block · user)

theorem block?_of_some {user : Nat} (h : register[user]? = some header) :
    register.block? (some user) = some (header.block user) := by
  rw [block?, Option.bind_some, h, Option.map_some]

theorem alignFor_of_wish {wish : Nat} (h : request.wish? = some wish) :
    register.alignFor request = Header.alignFor wish := by
  cases request <;> first | cases h; rfl | cases h

theorem alignFor_of_new (h : request.subject? = none) :
    register.alignFor request = Header.alignFor (request.wish?.getD Word.minAlign) := by
  rw [alignFor, h, Option.bind_none]

theorem alignFor_resize {user size : Nat} (h : register[user]? = some header) :
    register.alignFor (.resize (some user) size) = header.align := by
  simp only [alignFor, Request.subject?, Option.bind_some, h]

theorem getElem?_without (user : Nat) :
    (register.without gone)[user]? = if gone = some user then none else register[user]? := by
  cases gone with
  | none => rfl
  | some address =>
    rw [without, Record.getElem?_erase]
    simp only [Option.some.injEq]

/-- What is on the register after a header came for the one that went. -/
theorem insert_without_eq_some {new user : Nat} {old : Header} :
    ((register.without gone).insert new header)[user]? = some old ↔
      new = user ∧ header = old ∨ new ≠ user ∧ gone ≠ some user ∧ register[user]? = some old := by
  rw [Record.getElem?_insert, getElem?_without]
  split
  · rename_i heq
    simp [heq]
  · rename_i hne
    split
    · rename_i hgone
      simp [hne, hgone]
    · rename_i hstays
      simp [hne, hstays]

theorem getElem?_after (user : Nat) :
    (register.after request answer)[user]? =
      if answer = some user then some (register.headerFor request)
      else if request.ended? answer = some user then none else register[user]? := by
  cases answer with
  | none => simp [after, getElem?_without]
  | some address => simp [after, Record.getElem?_insert, getElem?_without]

theorem after_refused (h : request.releases = false) : register.after request none = register := by
  cases request with
  | release block => cases h
  | _ => rfl

theorem Sizes.after {held : Std.TreeMap Nat Nat} (h : register.Sizes held)
    (hsilent : request.releases → answer = none) :
    (register.after request answer).Sizes (Client.recordAfter held request answer) := by
  intro user
  rw [Client.getElem?_recordAfter hsilent, getElem?_after, h user]
  split
  · rfl
  · split <;> rfl

theorem Sizes.mem {held : Std.TreeMap Nat Nat} {user : Nat} (h : register.Sizes held)
    (hmem : user ∈ held) : ∃ header, register[user]? = some header := by
  obtain ⟨size, hsize⟩ := Record.mem_iff.mp hmem
  obtain ⟨header, hheader, -⟩ := Option.map_eq_some_iff.mp ((h user).symm.trans hsize)
  exact ⟨header, hheader⟩

theorem ofDeeds_served (deeds : List Deed) (request : Request) (answer : Option Nat) :
    ofDeeds (deeds ++ [.served request answer]) = (ofDeeds deeds).after request answer := by
  simp only [ofDeeds, List.foldl_append, List.foldl_cons, List.foldl_nil]

theorem ofDeeds_wrote (deeds : List Deed) (block offset len : Nat) (f : Nat → UInt8) :
    ofDeeds (deeds ++ [.wrote block offset len f]) = ofDeeds deeds := by
  simp only [ofDeeds, List.foldl_append, List.foldl_cons, List.foldl_nil]

end Register

end RegionHeap.Framed
