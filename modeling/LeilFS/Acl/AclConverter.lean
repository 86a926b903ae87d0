/-
Module: LeilFS.Acl.AclConverter
Purpose: POSIX access control lists from the bytes of an extended attribute.
Trusted boundary: none
-/
import LeilFS.Acl.PosixAcl

namespace LeilFS.Acl

open List

/-! ## Setting entries -/

namespace AccessControlList

variable {acl : AccessControlList} {type : EntryType} {id : UInt32} {rights : Rights}

theorem below_append_fromPlace (acl : AccessControlList) (type : EntryType) (id : UInt32) :
    acl.below type id ++ acl.fromPlace type id = acl.list :=
  takeWhile_append_dropWhile

theorem key_lt_of_mem_below {entry : Entry} (mem : entry ∈ acl.below type id) :
    entry.key < Entry.place type id := by
  simpa using mem_takeWhile_imp mem

/-- The entries from a place on are not before it. -/
theorem le_key_of_mem_fromPlace (h : acl.Sorted) {entry : Entry}
    (mem : entry ∈ acl.fromPlace type id) : Entry.place type id ≤ entry.key := by
  have suffix : (acl.fromPlace type id).Pairwise fun entry later => entry.key < later.key :=
    h.sublist (dropWhile_sublist _)
  cases place : acl.fromPlace type id with
  | nil => simp [place] at mem
  | cons first rest =>
    have notBefore : ¬ first.key < Entry.place type id := by
      have head := head?_dropWhile_not
        (fun entry : Entry => decide (entry.key < Entry.place type id)) acl.list
      unfold fromPlace at place
      rw [place] at head
      simpa using head
    rw [place] at mem suffix
    rcases mem_cons.mp mem with rfl | later
    · omega
    · have after := (pairwise_cons.mp suffix).1 entry later
      omega

/-- Setting the entry of a named user or group changes nothing, as the list is full, or puts the
entry alone into its place. -/
theorem setNamed_cases (h : acl.Sorted) (type : EntryType) (id : UInt32) (rights : Rights) :
    acl.setNamed type id rights = acl ∨ ∃ rest, acl.setNamed type id rights =
          { acl with list := acl.below type id ++ ⟨id, type, rights⟩ :: rest } ∧
        rest.Sublist acl.list ∧ (∀ entry ∈ rest, Entry.place type id < entry.key) ∧
        (acl.list.length ≤ maxSize →
          (acl.below type id ++ ⟨id, type, rights⟩ :: rest).length ≤ maxSize) := by
  have split := congrArg length (acl.below_append_fromPlace type id)
  have from_le : ∀ entry ∈ acl.fromPlace type id, Entry.place type id ≤ entry.key :=
    fun entry mem => le_key_of_mem_fromPlace h mem
  have suffix : (acl.fromPlace type id).Sublist acl.list := dropWhile_sublist _
  have ordered := h.sublist suffix
  unfold setNamed
  cases place : acl.fromPlace type id with
  | nil =>
    rw [place] at split
    split_ifs with room
    · refine .inr ⟨[], rfl, nil_sublist _, by simp, ?_⟩
      simp only [length_append, length_cons] at split ⊢
      omega
    · exact .inl rfl
  | cons first rest =>
    rw [place] at split from_le suffix ordered
    simp only [length_append, length_cons] at split
    have after := (pairwise_cons.mp ordered).1
    have notBefore := from_le first mem_cons_self
    dsimp only
    split_ifs with eq room
    · obtain ⟨rfl, rfl⟩ := eq
      refine .inr ⟨rest, rfl, (sublist_cons_self _ _).trans suffix, ?_, ?_⟩
      · intro entry mem
        exact after entry mem
      · simp only [length_append, length_cons]
        omega
    · have apart : Entry.place type id ≠ first.key := by
        intro equal
        exact eq ((Entry.place_inj.mp equal).imp Eq.symm Eq.symm)
      refine .inr ⟨first :: rest, rfl, suffix, ?_, ?_⟩
      · intro entry mem
        rcases mem_cons.mp mem with rfl | later
        · omega
        · have := after entry later
          omega
      · simp only [length_append, length_cons]
        omega
    · exact .inl rfl

/-- A list with the invariants of its class, that fits into its container. -/
structure Stored (acl : AccessControlList) : Prop extends acl.WellFormed where
  fits : acl.list.length ≤ maxSize

theorem Stored.setNamed (h : acl.Stored) (named : type = kNamedUser ∨ type = kNamedGroup)
    (id : UInt32) (le : rights ≤ 7) : (acl.setNamed type id rights).Stored := by
  rcases setNamed_cases h.ordered type id rights with eq | ⟨rest, made, sub, after, fits⟩
  · rw [eq]
    exact h
  have mem : ∀ entry ∈ acl.below type id ++ ⟨id, type, rights⟩ :: rest,
      entry ∈ acl.list ∨ entry = ⟨id, type, rights⟩ := by
    intro entry inside
    rcases mem_append.mp inside with prev | here
    · exact .inl ((takeWhile_sublist _).subset prev)
    · rcases mem_cons.mp here with rfl | later
      · exact .inr rfl
      · exact .inl (sub.subset later)
  rw [made]
  exact {
    ordered := by
      refine pairwise_append.mpr ⟨h.ordered.sublist (takeWhile_sublist _), ?_, ?_⟩
      · exact pairwise_cons.mpr ⟨after, h.ordered.sublist sub⟩
      · intro entry prev other here
        have low := key_lt_of_mem_below prev
        rcases mem_cons.mp here with rfl | later
        · exact low
        · exact low.trans (after other later)
    named := by
      intro entry inside
      rcases mem entry inside with old | rfl
      · exact h.named entry old
      · rcases named with rfl | rfl
        · rfl
        · rfl
    rights := by
      intro entry inside
      rcases mem entry inside with old | rfl
      · exact h.rights entry old
      · exact le
    owner := h.owner
    group := h.group
    other := h.other
    mask := h.mask
    fits := fits h.fits }

theorem Stored.setEntry (stored : acl.Stored) (type : EntryType) (id : UInt32) (le : rights ≤ 7) :
    (acl.setEntry type id rights).Stored := by
  unfold AccessControlList.setEntry
  split_ifs with named user group other mask
  · exact stored.setNamed named id le
  · exact { stored with owner := le }
  · exact { stored with group := le }
  · exact { stored with other := le }
  · exact { stored with mask := .inl le }
  · exact stored

theorem stored_empty : empty.Stored := { wellFormed_empty with fits := by decide }

end AccessControlList

/-! ## Extended attributes -/

open AccessControlList

/-- [SPEC acl_converter.cc:44-54] -/
def convertTag (tag : Nat) : EntryType :=
  if tag = 0x01 then kUser
  else if tag = 0x02 then kNamedUser
  else if tag = 0x04 then kGroup
  else if tag = 0x08 then kNamedGroup
  else if tag = 0x10 then kMask
  else if tag = 0x20 then kOther
  else kInvalid

/-- A number from its bytes, the lowest first. -/
def littleEndian : List UInt8 → Nat
  | [] => 0
  | byte :: bytes => byte.toNat + 256 * littleEndian bytes

/-- An entry from its eight bytes; the rights and the type are fields of four bits
[SPEC acl_converter.cc:56-77]. -/
def extractEntry (bytes : List UInt8) : Option Entry :=
  if bytes.length < 8 then none
  else
    let entry : Entry :=
      { type := convertTag (littleEndian (bytes.take 2))
        accessRights := BitVec.ofNat 4 (littleEndian ((bytes.drop 2).take 2))
        id := UInt32.ofNat (littleEndian ((bytes.drop 4).take 4)) }
    if entry.accessRights &&& ~~~7 ≠ 0 then none
    else if kUser ≤ entry.type ∧ entry.type < kInvalid ∧ entry.id ≠ kUndefinedId then none
    else if entry.type = kInvalid then none
    else some entry

/-- The entries one after the other, and the types that occurred; the entries that are not for
a named user or group occur once [SPEC acl_converter.cc:108-126]. -/
def extractEntries : Nat → List UInt8 → AccessControlList → List EntryType →
    Option (AccessControlList × List EntryType)
  | _, [], acl, seen => some (acl, seen)
  | 0, _ :: _, _, _ => none
  | fuel + 1, bytes, acl, seen => do
      let entry ← extractEntry bytes
      if kUser ≤ entry.type ∧ entry.type ∈ seen then none
      else
        extractEntries fuel (bytes.drop 8) (acl.setEntry entry.type entry.id entry.accessRights)
          (entry.type :: seen)

/-- [SPEC acl_converter.cc:95-129] -/
def extractAclObject (bytes : List UInt8) : Option AccessControlList :=
  if bytes.length < 4 ∨ littleEndian (bytes.take 4) ≠ 2 then none
  else do
    let (acl, seen) ← extractEntries bytes.length (bytes.drop 4) empty []
    if kUser ∈ seen ∧ kGroup ∈ seen ∧ kOther ∈ seen then some acl else none

variable {bytes : List UInt8}

theorem extractEntry_rights {entry : Entry}
    (extracted : extractEntry bytes = some entry) : entry.accessRights ≤ 7 := by
  unfold extractEntry at extracted
  dsimp only at extracted
  split_ifs at extracted with short wide
  cases extracted
  dsimp only
  revert wide
  generalize BitVec.ofNat 4 _ = rights
  revert rights
  decide

theorem extractEntries_stored {fuel : Nat} {acl acl' : AccessControlList}
    {seen seen' : List EntryType} (h : acl.Stored)
    (extracted : extractEntries fuel bytes acl seen = some (acl', seen')) : acl'.Stored := by
  induction fuel generalizing bytes acl seen with
  | zero =>
    cases bytes with
    | nil =>
      cases extracted
      exact h
    | cons byte bytes => cases extracted
  | succ fuel ih =>
    cases bytes with
    | nil =>
      cases extracted
      exact h
    | cons byte bytes =>
      unfold extractEntries at extracted
      rw [Option.bind_eq_bind, Option.bind_eq_some_iff] at extracted
      obtain ⟨entry, found, rest⟩ := extracted
      split_ifs at rest
      exact ih (h.setEntry _ _ (extractEntry_rights found)) rest

/-- What comes from an extended attribute has the invariants of its class. -/
theorem extractAclObject_stored {acl : AccessControlList}
    (extracted : extractAclObject bytes = some acl) : acl.Stored := by
  unfold extractAclObject at extracted
  split_ifs at extracted
  rw [Option.bind_eq_bind, Option.bind_eq_some_iff] at extracted
  obtain ⟨⟨found, seen⟩, entries, rest⟩ := extracted
  dsimp only at rest
  split_ifs at rest
  cases rest
  exact extractEntries_stored stored_empty entries

end LeilFS.Acl
