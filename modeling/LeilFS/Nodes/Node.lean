/-
Module: LeilFS.Nodes.Node
Purpose: The nodes of the file system, directories with their entries under two ways
  of comparing names, and the look-up of an entry.
Trusted boundary: none
-/
import Mathlib

namespace LeilFS.Nodes

/-!
The master keeps every node of the file system in memory.  A directory holds its
entries, names with the nodes they lead to, and every node holds the list of its
parents, directories with the name it has there.  A directory that was last used by
a case-insensitive session also holds its entries under their lower-case names
[SPEC filesystem_node_types.h:118-186, 380-606].
-/

/-- Inode numbers. -/
abbrev InodeId := Nat

/-- Names and paths are strings of bytes. -/
abbrev Name := List UInt8

/-- The C library's `tolower` in the C locale. -/
def toLowerByte (b : UInt8) : UInt8 :=
  if 65 ≤ b ∧ b ≤ 90 then b + 32 else b

/-- [SPEC hstring.h:74-78] The lower-case form of what stands before the first
null byte. -/
def toLowerCase (name : Name) : Name :=
  (name.takeWhile (· ≠ 0)).map toLowerByte

/-- [SPEC filesystem_node_types.h:94-105] -/
inductive FSNodeType where
  | file | directory | symlink | fifo | blockDev | charDev | socket | trash | reserved
deriving Repr, DecidableEq

/-- A node, with what its directory and file classes add to it. -/
structure FSNode where
  type : FSNodeType
  parents : List (InodeId × Name)
  trashtime : Nat
  sessionIds : List Nat
  entries : List (Name × InodeId)
  lowerCaseEntries : List (Name × InodeId)
  caseInsensitive : Bool
deriving Repr, DecidableEq

/-- What the master knows of the file system: the nodes by their numbers, and the paths
of the files in the trash and of the removed files that are still open. -/
structure Metadata where
  nodes : Finmap fun _ : InodeId => FSNode
  trash : Finmap fun _ : InodeId => Name
  reserved : Finmap fun _ : InodeId => Name

/-- `SPECIAL_INODE_ROOT` -/
def specialInodeRoot : InodeId := 1

theorem toLowerByte_idem (b : UInt8) : toLowerByte (toLowerByte b) = toLowerByte b := by
  unfold toLowerByte
  by_cases upper : 65 ≤ b ∧ b ≤ 90
  · rw [if_pos upper]
    have lower : ¬ (65 ≤ b + 32 ∧ b + 32 ≤ 90) := by
      simp only [UInt8.le_iff_toNat_le, UInt8.toNat_add, UInt8.toNat_ofNat] at *
      omega
    rw [if_neg lower]
  · rw [if_neg upper, if_neg upper]

theorem toLowerByte_ne_zero {b : UInt8} (h : b ≠ 0) : toLowerByte b ≠ 0 := by
  unfold toLowerByte
  by_cases upper : 65 ≤ b ∧ b ≤ 90
  · rw [if_pos upper]
    intro zero
    have := congrArg UInt8.toNat zero
    simp only [UInt8.le_iff_toNat_le, UInt8.toNat_add, UInt8.toNat_ofNat] at *
    omega
  · rw [if_neg upper]
    exact h

/-- A lower-case name is its own lower-case form. -/
@[simp] theorem toLowerCase_idem (name : Name) :
    toLowerCase (toLowerCase name) = toLowerCase name := by
  have all : ∀ b ∈ (name.takeWhile (· ≠ 0)).map toLowerByte, decide (b ≠ 0) = true := by
    intro b mem
    obtain ⟨c, prev, rfl⟩ := List.mem_map.mp mem
    have ne := List.mem_takeWhile_imp prev
    exact decide_eq_true (toLowerByte_ne_zero (of_decide_eq_true ne))
  unfold toLowerCase
  rw [List.takeWhile_eq_self_iff.mpr all, List.map_map]
  exact List.map_congr_left fun b _ => toLowerByte_idem b

namespace FSNode

/-- The entry with this very name [SPEC filesystem_node_types.h:437-445]. -/
def findEntry (dir : FSNode) (name : Name) : Option (Name × InodeId) :=
  dir.entries.find? (·.1 = name)

/-- [SPEC filesystem_node_types.h:451-468] -/
def findLowercaseContainer (dir : FSNode) (name : Name) : Option (Name × InodeId) :=
  if dir.caseInsensitive then
    dir.lowerCaseEntries.find? (·.1 = toLowerCase name)
  else none

/-- An entry goes into the lower-case container unless its name is there already. -/
def addLowerCase (dir : FSNode) (entry : Name × InodeId) : FSNode :=
  match dir.findLowercaseContainer (toLowerCase entry.1) with
  | some _ => dir
  | none =>
      { dir with
        lowerCaseEntries := dir.lowerCaseEntries ++ [(toLowerCase entry.1, entry.2)] }

/-- [SPEC filesystem_node_types.h:576-602] -/
def updateLowerCaseEntries (dir : FSNode) : FSNode :=
  if dir.caseInsensitive then
    dir.entries.foldl addLowerCase dir
  else
    { dir with lowerCaseEntries := [] }

/-- A directory takes over the session's way of comparing names
[SPEC filesystem_node.cc:2741-2748]. -/
def useCase (caseInsensitive : Bool) (dir : FSNode) : FSNode :=
  if dir.caseInsensitive = caseInsensitive then dir
  else updateLowerCaseEntries { dir with caseInsensitive := caseInsensitive }

end FSNode

namespace Metadata

/-- `idToNode` -/
def node (md : Metadata) (id : InodeId) : Option FSNode :=
  md.nodes.lookup id

/-- Change a node that exists. -/
def modify (md : Metadata) (id : InodeId) (f : FSNode → FSNode) : Metadata :=
  match md.node id with
  | some n => { md with nodes := md.nodes.insert id (f n) }
  | none => md

/-- A new node. -/
def addNode (md : Metadata) (id : InodeId) (n : FSNode) : Metadata :=
  { md with nodes := md.nodes.insert id n }

/-- A node goes. -/
def eraseNode (md : Metadata) (id : InodeId) : Metadata :=
  { md with nodes := md.nodes.erase id }

def type? (md : Metadata) (id : InodeId) : Option FSNodeType :=
  (md.node id).map FSNode.type

def parents (md : Metadata) (id : InodeId) : List (InodeId × Name) :=
  ((md.node id).map FSNode.parents).getD []

def entries (md : Metadata) (id : InodeId) : List (Name × InodeId) :=
  ((md.node id).map FSNode.entries).getD []

/-- The directory compares names without their case. -/
def folds (md : Metadata) (id : InodeId) : Bool :=
  ((md.node id).map FSNode.caseInsensitive).getD false

/-- The node is a directory. -/
def IsDirectory (md : Metadata) (id : InodeId) : Prop :=
  md.type? id = some .directory

instance (md : Metadata) (id : InodeId) : Decidable (md.IsDirectory id) :=
  inferInstanceAs (Decidable (md.type? id = some .directory))

/-- The parent of a directory. -/
def parentOf (md : Metadata) (id : InodeId) : Option InodeId :=
  if md.IsDirectory id then (md.parents id).head?.map Prod.fst else none

/-- The first of the parents entries of a node that is about the directory. -/
def firstEntryIn (md : Metadata) (dir child : InodeId) : Option (InodeId × Name) :=
  (md.parents child).find? (·.1 = dir)

/-- [SPEC filesystem_node_types.h:501-506] -/
def getChildName (md : Metadata) (dir child : InodeId) : Name :=
  ((md.firstEntryIn dir child).map Prod.snd).getD []

/-- [SPEC filesystem_node_types.h:420-449, 476-487] In a case-insensitive
directory the lower-case container gives the node, and the entry is the one under the
first name that the node has there. -/
def find (md : Metadata) (dir : InodeId) (name : Name) : Option (Name × InodeId) :=
  (md.node dir).bind fun d =>
    if d.caseInsensitive then
      (d.findLowercaseContainer name).bind fun entry =>
        d.findEntry (md.getChildName dir entry.2)
    else d.findEntry name

/-- [SPEC filesystem_node.cc:229-248] -/
def lookup (md : Metadata) (dir : InodeId) (name : Name) : Option InodeId :=
  (md.find dir name).map Prod.snd

/-- [SPEC filesystem_node.cc:309-313] -/
def isNameUsed (md : Metadata) (dir : InodeId) (name : Name) : Bool :=
  (md.lookup dir name).isSome

/-- [SPEC filesystem_node_types.h:528-564] The stored name of the entry that
matches the name without regard to case; empty when there is none. -/
def getBaseStoredChildName (md : Metadata) (dir : InodeId) (name : Name) : Name :=
  match md.node dir with
  | none => []
  | some d =>
      match d.findLowercaseContainer name with
      | none => []
      | some (_, child) =>
          match md.firstEntryIn dir child with
          | some entry => entry.2
          | none => ((d.entries.find? (·.2 = child)).map Prod.fst).getD []

section Fields

variable {md : Metadata} {id other : InodeId} {f : FSNode → FSNode} {n : FSNode}

theorem node_addNode : (md.addNode id n).node other =
    if other = id then some n else md.node other := by
  by_cases eq : other = id
  · rw [if_pos eq, eq]
    exact Finmap.lookup_insert _
  · rw [if_neg eq]
    exact Finmap.lookup_insert_of_ne _ eq

theorem node_modify : (md.modify id f).node other =
    if other = id then (md.node id).map f else md.node other := by
  unfold modify
  cases present : md.node id with
  | none =>
    by_cases eq : other = id
    · rw [if_pos eq, eq, present]
      rfl
    · rw [if_neg eq]
  | some n => exact node_addNode

theorem node_eraseNode : (md.eraseNode id).node other =
    if other = id then none else md.node other := by
  by_cases eq : other = id
  · rw [if_pos eq, eq]
    exact Finmap.lookup_erase _ _
  · rw [if_neg eq]
    exact Finmap.lookup_erase_ne eq

/-- A change that does nothing. -/
theorem modify_eq_self (same : ∀ n, md.node id = some n → f n = n) : md.modify id f = md := by
  unfold modify
  cases present : md.node id with
  | none => rfl
  | some n =>
    have nodes : md.nodes.insert id (f n) = md.nodes := by
      refine Finmap.ext_lookup fun other => ?_
      by_cases eq : other = id
      · rw [eq, Finmap.lookup_insert, same n present]
        exact present.symm
      · exact Finmap.lookup_insert_of_ne _ eq
    exact congrArg (fun nodes => { md with nodes := nodes }) nodes

/-- A field that a change keeps is the same for all nodes. -/
theorem field_modify {β : Type} {field : FSNode → β} (keeps : ∀ n, field (f n) = field n) :
    ((md.modify id f).node other).map field = (md.node other).map field := by
  rw [node_modify]
  by_cases eq : other = id
  · rw [if_pos eq, eq, Option.map_map]
    exact congrArg (Option.map · _) (funext keeps)
  · rw [if_neg eq]

theorem type?_modify (keeps : ∀ n, (f n).type = n.type) :
    (md.modify id f).type? other = md.type? other :=
  field_modify keeps

theorem parents_modify (keeps : ∀ n, (f n).parents = n.parents) :
    (md.modify id f).parents other = md.parents other :=
  congrArg (Option.getD · []) (field_modify keeps)

theorem entries_modify (keeps : ∀ n, (f n).entries = n.entries) :
    (md.modify id f).entries other = md.entries other :=
  congrArg (Option.getD · []) (field_modify keeps)

theorem folds_modify (keeps : ∀ n, (f n).caseInsensitive = n.caseInsensitive) :
    (md.modify id f).folds other = md.folds other :=
  congrArg (Option.getD · false) (field_modify keeps)

@[simp] theorem trash_modify : (md.modify id f).trash = md.trash := by
  unfold modify
  split <;> rfl

/-- A list that a change rewrites, of one node. -/
theorem field_modify_eq {β : Type} {field : FSNode → List β} {g : List β → List β}
    (changes : ∀ n, field (f n) = g (field n)) (present : md.type? id ≠ none) :
    (((md.modify id f).node other).map field).getD [] =
      if other = id then g (((md.node id).map field).getD [])
      else ((md.node other).map field).getD [] := by
  rw [node_modify]
  by_cases eq : other = id
  · rw [if_pos eq, if_pos eq]
    cases there : md.node id with
    | none => rw [type?, there] at present; exact absurd rfl present
    | some n => exact changes n
  · rw [if_neg eq, if_neg eq]

theorem parents_modify_eq (g : List (InodeId × Name) → List (InodeId × Name))
    (changes : ∀ n, (f n).parents = g n.parents) (present : md.type? id ≠ none) :
    (md.modify id f).parents other =
      if other = id then g (md.parents id) else md.parents other :=
  field_modify_eq changes present

theorem entries_modify_eq (g : List (Name × InodeId) → List (Name × InodeId))
    (changes : ∀ n, (f n).entries = g n.entries) (present : md.type? id ≠ none) :
    (md.modify id f).entries other =
      if other = id then g (md.entries id) else md.entries other :=
  field_modify_eq changes present

end Fields

end Metadata

end LeilFS.Nodes
