/-
Module: LeilFS.Acl.AclStorage
Purpose: The storage in which inodes with equal lists share one copy of the list, and the plain
  map from inodes to lists that it stands for.
Trusted boundary: none
-/
import LeilFS.Acl.RichAcl

namespace LeilFS.Acl

open Function

/-- The stored lists with their reference counts, and the stored list of every inode: a reference
to a stored pair is the key of that pair. The type of inode numbers is a matter of the build.
[SPEC acl_storage.h:87-115, type_defs.h:28-36] -/
structure AclStorage (Inode : Type) where
  storage : RichACL → Option ℕ
  acl : Inode → Option RichACL

namespace AclStorage

variable {Inode : Type} [DecidableEq Inode] (s : AclStorage Inode) (id : Inode) (acl : RichACL)

/-- A list that is not stored yet enters with the count zero. [SPEC acl_storage.cc:95-102] -/
def ref (storage : RichACL → Option ℕ) : RichACL → Option ℕ :=
  update storage acl (some ((storage acl).getD 0 + 1))

/-- The reference dangles where the pair is not stored, and the assertion fails where nothing is
counted. [SPEC acl_storage.cc:104-112] -/
def unref (storage : RichACL → Option ℕ) : Option (RichACL → Option ℕ) :=
  match storage acl with
  | none | some 0 => none
  | some (count + 1) =>
      some (update storage acl (if count = 0 then none else some count))

/-- [SPEC acl_storage.cc:56-61] -/
def get : Option RichACL := s.acl id

/-- [SPEC acl_storage.cc:63-72] -/
def set : Option (AclStorage Inode) :=
  match s.acl id with
  | none => some ⟨ref acl s.storage, update s.acl id (some acl)⟩
  | some old =>
      (unref old (ref acl s.storage)).map (⟨·, update s.acl id (some acl)⟩)

/-- [SPEC acl_storage.cc:74-80] -/
def erase : Option (AclStorage Inode) :=
  match s.acl id with
  | none => some s
  | some old => (unref old s.storage).map (⟨·, update s.acl id none⟩)

/-- [SPEC acl_storage.cc:82-93] -/
def setMode (mode : Mode) (isDir : Bool) : Option (AclStorage Inode) :=
  match s.acl id with
  | none => some s
  | some old =>
      let aclWithMode := old.setMode mode isDir
      if aclWithMode ≠ old then
        (unref old s.storage).map fun storage =>
          ⟨ref aclWithMode storage, update s.acl id (some aclWithMode)⟩
      else some s

end AclStorage

inductive AclCall (Inode : Type) where
  | set (id : Inode) (acl : RichACL)
  | erase (id : Inode)
  | setMode (id : Inode) (mode : Mode) (isDir : Bool)

variable {Inode : Type} [DecidableEq Inode]

/-- What a call does to a plain map. -/
def AclCall.onMap (m : Inode → Option RichACL) : AclCall Inode → Inode → Option RichACL
  | .set id acl => update m id (some acl)
  | .erase id => update m id none
  | .setMode id mode isDir => update m id ((m id).map (·.setMode mode isDir))

namespace AclStorage

def apply (s : AclStorage Inode) : AclCall Inode → Option (AclStorage Inode)
  | .set id acl => s.set id acl
  | .erase id => s.erase id
  | .setMode id mode isDir => s.setMode id mode isDir

/-- How often one inode refers to a list. -/
def tally (list : Option RichACL) (acl : RichACL) : ℕ := if list = some acl then 1 else 0

/-- The lists that are referred to, with how often they are. -/
def table (number : RichACL → ℕ) (acl : RichACL) : Option ℕ :=
  if number acl = 0 then none else some (number acl)

section Table

variable (number : RichACL → ℕ) (acl : RichACL)

theorem add_tally_self : (number + tally (some acl)) acl = number acl + 1 := by
  rw [Pi.add_apply, tally, if_pos rfl]

theorem table_add_tally_of_ne {other : RichACL} (ne : other ≠ acl) :
    table (number + tally (some acl)) other = table number other := by
  rw [table, table, Pi.add_apply, tally, if_neg fun eq => ne (Option.some.inj eq).symm, add_zero]

theorem ref_table : ref acl (table number) = table (number + tally (some acl)) := by
  funext other
  rcases eq_or_ne other acl with rfl | ne
  · rw [ref, update_self, table, table, add_tally_self]
    split <;> simp_all
  · rw [ref, update_of_ne ne, table_add_tally_of_ne _ _ ne]

theorem unref_table : unref acl (table (number + tally (some acl))) = some (table number) := by
  have stored : table (number + tally (some acl)) acl = some (number acl + 1) := by
    rw [table, add_tally_self, if_neg (Nat.succ_ne_zero _)]
  simp only [unref, stored, Option.some_inj]
  funext other
  rcases eq_or_ne other acl with rfl | ne
  · rw [update_self, table]
  · rw [update_of_ne ne, table_add_tally_of_ne _ _ ne]

end Table

variable [Fintype Inode] (m : Inode → Option RichACL) (id : Inode)

/-- How many inodes refer to a list. -/
def uses (acl : RichACL) : ℕ := (Finset.univ.filter fun id => m id = some acl).card

/-- The storage of a plain map. -/
def ofMap : AclStorage Inode := ⟨table (uses m), m⟩

/-- An inode and the others refer to a list. -/
theorem uses_eq : uses m = uses (update m id none) + tally (m id) := by
  funext acl
  have others : Finset.univ.filter (fun other => update m id none other = some acl) =
      (Finset.univ.filter fun other => m other = some acl).erase id := by
    ext other
    rcases eq_or_ne other id with rfl | ne
    · simp
    · simp [ne]
  rw [Pi.add_apply, uses, uses, others, tally]
  split
  · next found => rw [Finset.card_erase_add_one (by simpa using found)]
  · next absent => rw [Finset.erase_eq_of_notMem (by simpa using absent), add_zero]

theorem uses_update (acl : RichACL) : uses (update m id (some acl)) =
      uses (update m id none) + tally (some acl) := by
  rw [uses_eq _ id, update_idem, update_self]

theorem set_ofMap (acl : RichACL) :
    (ofMap m).set id acl = some (ofMap (update m id (some acl))) := by
  have uses := uses_eq m id
  dsimp only [AclStorage.set, ofMap]
  cases found : m id with
  | none =>
    rw [found, show tally none = 0 from rfl, add_zero] at uses
    rw [uses_update, ← ref_table, ← uses]
  | some old =>
    rw [found] at uses
    dsimp only
    rw [uses, ref_table, add_right_comm, unref_table, uses_update]
    rfl

theorem erase_ofMap : (ofMap m).erase id = some (ofMap (update m id none)) := by
  have uses := uses_eq m id
  dsimp only [AclStorage.erase, ofMap]
  cases found : m id with
  | none => rw [update_eq_self_iff.mpr found.symm]
  | some old =>
    rw [found] at uses
    dsimp only
    rw [uses, unref_table]
    rfl

theorem setMode_ofMap (mode : Mode) (isDir : Bool) : (ofMap m).setMode id mode isDir =
      some (ofMap (update m id ((m id).map (·.setMode mode isDir)))) := by
  have uses := uses_eq m id
  dsimp only [AclStorage.setMode, ofMap]
  cases found : m id with
  | none => rw [Option.map_none, update_eq_self_iff.mpr found.symm]
  | some old =>
    rw [found] at uses
    dsimp only [Option.map_some]
    split
    · rw [uses, unref_table, uses_update, ← ref_table]
      rfl
    · next eq => rw [not_not.mp eq, update_eq_self_iff.mpr found.symm]

/-- A storage that holds a plain map holds after a call the map that the call leads to. -/
theorem apply_ofMap (call : AclCall Inode) :
    (ofMap m).apply call = some (ofMap (call.onMap m)) := by
  cases call with
  | set id acl => exact set_ofMap m id acl
  | erase id => exact erase_ofMap m id
  | setMode id mode isDir => exact setMode_ofMap m id mode isDir

theorem run_ofMap (calls : List (AclCall Inode)) :
    calls.foldlM apply (ofMap m) = some (ofMap (calls.foldl AclCall.onMap m)) := by
  induction calls generalizing m with
  | nil => rfl
  | cons call calls ih =>
    rw [List.foldlM_cons, apply_ofMap]
    exact ih (call.onMap m)

/-- After any calls an inode has the list that it has in a plain map, and the stored lists are
the ones in use, each counted once for every inode that has it. -/
theorem run_refines_map (calls : List (AclCall Inode)) :
    ∃ s, calls.foldlM apply ⟨fun _ => none, fun _ => none⟩ = some s ∧
      (∀ id, s.get id = calls.foldl AclCall.onMap (fun _ => none) id) ∧
      ∀ acl count, s.storage acl = some count ↔
        0 < count ∧ count = {id | s.get id = some acl}.ncard := by
  have initially : (⟨fun _ => none, fun _ => none⟩ : AclStorage Inode) = ofMap fun _ => none := by
    simp [ofMap, uses, table, funext_iff]
  rw [initially, run_ofMap]
  refine ⟨_, rfl, fun _ => rfl, fun acl count => ?_⟩
  generalize calls.foldl AclCall.onMap _ = m
  have users : {id | (ofMap m).get id = some acl}.ncard = uses m acl := by
    rw [uses, ← Set.ncard_coe_finset, Finset.coe_filter_univ]
    rfl
  rw [users]
  change table (uses m) acl = _ ↔ _
  unfold table
  grind

end AclStorage

end LeilFS.Acl
