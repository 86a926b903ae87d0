/-
Module: LeilFS.Acl.PosixAcl
Purpose: POSIX access control lists, as clients send and the master reads them.
Trusted boundary: none
-/
import LeilFS.Lib.SortedSeq

namespace LeilFS.Acl

open List

/-! ## Entries -/

/-- The rights of an entry, in a field of four bits: read, write and execute are the lower
three. -/
abbrev Rights := BitVec 4

/-- The type of an entry, in a field of four bits [SPEC access_control_list.h:51]. -/
abbrev EntryType := BitVec 4

def kNamedUser : EntryType := 0

def kNamedGroup : EntryType := 1

def kUser : EntryType := 2

def kGroup : EntryType := 3

def kOther : EntryType := 4

def kMask : EntryType := 5

def kInvalid : EntryType := 6

/-- The rights of a mask entry that is not there. -/
def kMaskUnset : Rights := 0xF

/-- The id of an entry that has none. -/
def kUndefinedId : UInt32 := 0xFFFFFFFF

/-- [SPEC access_control_list.h:55-95] -/
structure Entry where
  id : UInt32
  type : EntryType
  accessRights : Rights
deriving Repr, DecidableEq

namespace Entry

/-- An entry of a named user or a named group. -/
def isNamed (entry : Entry) : Bool :=
  entry.type = kNamedUser || entry.type = kNamedGroup

/-- The place of a type and an id in the order of entries.  A search asks for the rights 0,
which stand before all others, so that rights never decide it
[SPEC access_control_list.h:67-70]. -/
def place (type : EntryType) (id : UInt32) : Nat :=
  type.toNat * 2 ^ 32 + id.toNat

def key (entry : Entry) : Nat := place entry.type entry.id

/-- Different types or ids have different places. -/
theorem place_inj {type type' : EntryType} {id id' : UInt32} :
    place type id = place type' id' ↔ type = type' ∧ id = id' := by
  constructor
  · intro eq
    have lt : id.toNat < 2 ^ 32 := id.toNat_lt
    have lt' : id'.toNat < 2 ^ 32 := id'.toNat_lt
    unfold place at eq
    exact ⟨BitVec.eq_of_toNat_eq (by omega), UInt32.toNat_inj.mp (by omega)⟩
  · rintro ⟨rfl, rfl⟩
    rfl

end Entry

/-! ## Access control lists -/

/-- [SPEC access_control_list.h:41-419] The basic permissions are four rights in one
word. -/
structure AccessControlList where
  list : List Entry
  ownerRights : Rights
  groupRights : Rights
  otherRights : Rights
  maskRights : Rights
deriving Repr, DecidableEq

namespace AccessControlList

/-- An access control list without any rights [SPEC access_control_list.h:101]. -/
def empty : AccessControlList where
  list := []
  ownerRights := 0
  groupRights := 0
  otherRights := 0
  maskRights := kMaskUnset

/-- `list_.max_size()` -/
def maxSize : Nat := 65535

/-- The entries before the place of a type and an id, and those from it on. -/
def below (acl : AccessControlList) (type : EntryType) (id : UInt32) : List Entry :=
  acl.list.takeWhile fun entry => entry.key < Entry.place type id

def fromPlace (acl : AccessControlList) (type : EntryType) (id : UInt32) : List Entry :=
  acl.list.dropWhile fun entry => entry.key < Entry.place type id

/-- The entry of a named user or group. -/
def findNamed (acl : AccessControlList) (type : EntryType) (id : UInt32) : Option Entry :=
  (acl.fromPlace type id).head?.filter fun entry => entry.type = type && entry.id = id

/-- [SPEC access_control_list.h:263-289] -/
def getEntry (acl : AccessControlList) (type : EntryType) (id : UInt32) : Entry :=
  let invalid : Entry := ⟨kUndefinedId, kInvalid, 0⟩
  if type = kNamedUser ∨ type = kNamedGroup then (acl.findNamed type id).getD invalid
  else if type = kUser then ⟨kUndefinedId, kUser, acl.ownerRights⟩
  else if type = kGroup then ⟨kUndefinedId, kGroup, acl.groupRights⟩
  else if type = kOther then ⟨kUndefinedId, kOther, acl.otherRights⟩
  else if type = kMask ∧ acl.maskRights ≠ kMaskUnset then ⟨kUndefinedId, kMask, acl.maskRights⟩
  else invalid

/-- The entry of a named user or group is changed or put into its place
[SPEC access_control_list.h:194-207]. -/
def setNamed (acl : AccessControlList) (type : EntryType) (id : UInt32) (rights : Rights) :
    AccessControlList :=
  match acl.fromPlace type id with
  | entry :: rest =>
      if entry.type = type ∧ entry.id = id then
        { acl with list := acl.below type id ++ { entry with accessRights := rights } :: rest }
      else if acl.list.length < maxSize then
        { acl with list := acl.below type id ++ ⟨id, type, rights⟩ :: entry :: rest }
      else acl
  | [] =>
      if acl.list.length < maxSize then
        { acl with list := acl.below type id ++ [⟨id, type, rights⟩] }
      else acl

/-- [SPEC access_control_list.h:190-224] -/
def setEntry (acl : AccessControlList) (type : EntryType) (id : UInt32) (rights : Rights) :
    AccessControlList :=
  if type = kNamedUser ∨ type = kNamedGroup then acl.setNamed type id rights
  else if type = kUser then { acl with ownerRights := rights }
  else if type = kGroup then { acl with groupRights := rights }
  else if type = kOther then { acl with otherRights := rights }
  else if type = kMask then { acl with maskRights := rights }
  else acl

/-- [SPEC access_control_list.h:173-182] -/
def setMode (acl : AccessControlList) (mode : BitVec 16) : AccessControlList :=
  let acl := { acl with
    otherRights := (mode &&& 7).setWidth 4
    ownerRights := (mode >>> 6 &&& 7).setWidth 4 }
  let rights : Rights := (mode >>> 3 &&& 7).setWidth 4
  if acl.maskRights = kMaskUnset then { acl with groupRights := rights }
  else { acl with maskRights := rights }

/-- [SPEC access_control_list.h:337-339] -/
def minimalAcl (acl : AccessControlList) : Bool :=
  acl.maskRights = kMaskUnset && acl.list.isEmpty

/-- [SPEC access_control_list.h:345-350] -/
def applyMask (acl : AccessControlList) (rights : Rights) : Rights :=
  if acl.maskRights ≠ kMaskUnset then rights &&& acl.maskRights else rights

/-- The rights of the groups with an entry among some groups, if there are any. -/
def namedGroupRights (acl : AccessControlList) (groups : List UInt32) : List Rights :=
  groups.filterMap fun id => (acl.findNamed kNamedGroup id).map (·.accessRights)

/-- [SPEC access_control_list.h:299-334] -/
def getEffectiveRights (acl : AccessControlList) (ownerUid ownerGid uid : UInt32)
    (groups : List UInt32) : Rights :=
  if uid = ownerUid then acl.ownerRights
  else
    match acl.findNamed kNamedUser uid with
    | some entry => acl.applyMask entry.accessRights
    | none =>
        let owning := if ownerGid ∈ groups then [acl.groupRights] else []
        let found := owning ++ acl.namedGroupRights groups
        if found ≠ [] then acl.applyMask (found.foldl (· ||| ·) 0) else acl.otherRights

/-! ### Lists that are built by setting entries -/

/-- Entries stand in their order, each type and id once, as in every `flat_set`. -/
def Sorted (acl : AccessControlList) : Prop :=
  acl.list.Pairwise fun entry later => entry.key < later.key

/-- The entries of named users and groups. -/
def namedEntries (acl : AccessControlList) : List Entry := acl.list.filter (·.isNamed)

/-- No user and no group is named twice. -/
def NamedOnce (acl : AccessControlList) : Prop := (acl.namedEntries.map Entry.key).Nodup

theorem Sorted.namedOnce {acl : AccessControlList} (h : acl.Sorted) : acl.NamedOnce :=
  pairwise_map.mpr ((h.sublist filter_sublist).imp Nat.ne_of_lt)

/-- What `setEntry` keeps, and asserts of the rights it is given: the entries are those of
named users and groups, in order and without repetition, and rights are sets of the three
permissions. -/
structure WellFormed (acl : AccessControlList) : Prop where
  ordered : acl.Sorted
  named : ∀ entry ∈ acl.list, entry.isNamed = true
  rights : ∀ entry ∈ acl.list, entry.accessRights ≤ 7
  owner : acl.ownerRights ≤ 7
  group : acl.groupRights ≤ 7
  other : acl.otherRights ≤ 7
  mask : acl.maskRights ≤ 7 ∨ acl.maskRights = kMaskUnset

theorem wellFormed_empty : empty.WellFormed where
  ordered := List.Pairwise.nil
  named := by simp [empty]
  rights := by simp [empty]
  owner := by decide
  group := by decide
  other := by decide
  mask := by decide

/-- A search finds the entry of a type and an id. -/
theorem findNamed_eq_some {acl : AccessControlList} (h : acl.Sorted) {type : EntryType}
    {id : UInt32} {entry : Entry} : acl.findNamed type id = some entry ↔
      entry ∈ acl.list ∧ entry.type = type ∧ entry.id = id := by
  unfold findNamed fromPlace
  unfold Sorted at h
  generalize acl.list = entries at h ⊢
  induction entries with
  | nil => simp
  | cons first rest ih =>
    rw [pairwise_cons] at h
    rw [dropWhile_cons]
    split
    next prev =>
      have other : ¬ (first.type = type ∧ first.id = id) := by
        rintro ⟨rfl, rfl⟩
        exact absurd prev (by simp [Entry.key])
      rw [ih h.2, mem_cons]
      constructor
      · exact fun ⟨mem, here⟩ => ⟨.inr mem, here⟩
      · rintro ⟨rfl | mem, here⟩
        · exact absurd here other
        · exact ⟨mem, here⟩
    next notBefore =>
      rw [head?_cons, Option.filter_eq_some_iff, Option.some.injEq]
      simp only [Bool.and_eq_true, decide_eq_true_eq, mem_cons]
      constructor
      · rintro ⟨rfl, here⟩
        exact ⟨.inl rfl, here⟩
      · rintro ⟨rfl | mem, here⟩
        · exact ⟨rfl, here⟩
        · -- an entry after the first one has a greater key than the one looked for
          have later := h.1 entry mem
          simp only [decide_eq_true_eq] at notBefore
          rw [show Entry.place type id = entry.key by rw [← here.1, ← here.2]; rfl] at notBefore
          omega

end AccessControlList

end LeilFS.Acl
