/-
Module: LeilFS.Nodes.Edges
Purpose: The two sides of an edge, the entry of a directory and the parents entry of a
  node, agree, and linking and removing an edge keep them so.
Trusted boundary: none
-/
import LeilFS.Lib.KeyedList
import LeilFS.Nodes.Node

namespace LeilFS.Nodes

open KeyedList FSNode List

/-- Where a new handle sorts among the handles of a container depends on the hash of its
name and on the address of its text: any place is possible, and the two texts have places of
their own, among the entries and among the lower-case entries. -/
abbrev Place := Nat × Nat

namespace FSNode

/-- The entry, and the lower-case entry where the directory has them. -/
def addEntry (place : Place) (name : Name) (child : InodeId) (dir : FSNode) : FSNode :=
  { dir with
    entries := dir.entries.insertIdx (min place.1 dir.entries.length) (name, child)
    lowerCaseEntries :=
      if dir.caseInsensitive then
        dir.lowerCaseEntries.insertIdx (min place.2 dir.lowerCaseEntries.length)
          (toLowerCase name, child)
      else dir.lowerCaseEntries }

/-- The entry goes, and with it the lower-case entry of the name that was asked for. -/
def removeEntry (childName : Name) (entry : Name × InodeId) (dir : FSNode) : FSNode :=
  { dir with
    entries := dir.entries.erase entry
    lowerCaseEntries :=
      if dir.caseInsensitive then
        dir.lowerCaseEntries.eraseP (·.1 = toLowerCase childName)
      else dir.lowerCaseEntries }

def addParent (parent : InodeId) (name : Name) (child : FSNode) : FSNode :=
  { child with parents := child.parents ++ [(parent, name)] }

/-- A parents entry that `removeEdge` takes for the edge. -/
def matchesEdge (parent : InodeId) (folds : Bool) (childName : Name)
    (entry : InodeId × Name) : Bool :=
  entry.1 = parent &&
    (if folds then toLowerCase entry.2 = toLowerCase childName else entry.2 = childName)

def removeParent (parent : InodeId) (folds : Bool) (childName : Name) (child : FSNode) : FSNode :=
  { child with parents := child.parents.eraseP (matchesEdge parent folds childName) }

/-- The lower-case container of a case-insensitive directory holds its entries, whose
names differ by more than case. -/
structure Folded (dir : FSNode) : Prop where
  sensitive : dir.caseInsensitive = false → dir.lowerCaseEntries = []
  distinct : dir.caseInsensitive = true →
    (dir.entries.map fun e => toLowerCase e.1).Nodup
  lowered : dir.caseInsensitive = true →
    dir.lowerCaseEntries.Perm (dir.entries.map fun e => (toLowerCase e.1, e.2))

namespace Folded

variable {dir : FSNode} (h : Folded dir) (folding : dir.caseInsensitive = true)
include h folding

theorem nodup_lowerCase : (dir.lowerCaseEntries.map Prod.fst).Nodup := by
  refine ((h.lowered folding).map Prod.fst).nodup_iff.mpr ?_
  rw [map_map]
  exact h.distinct folding

/-- The lower-case entry of an entry. -/
theorem mem_lowerCase {stored name : Name} {child : InodeId} (mem : (stored, child) ∈ dir.entries)
    (eq : toLowerCase stored = toLowerCase name) :
    (toLowerCase name, child) ∈ dir.lowerCaseEntries :=
  (h.lowered folding).mem_iff.mpr (mem_map.mpr ⟨(stored, child), mem, by rw [eq]⟩)

end Folded

end FSNode

namespace Metadata

/-- Both sides of a new edge. -/
def addEdge (place : Place) (parent child : InodeId) (name : Name) (md : Metadata) : Metadata :=
  (md.modify parent (FSNode.addEntry place name child)).modify child
    (FSNode.addParent parent name)

/-- [SPEC filesystem_node.cc:887-929] -/
def link (place : Place) (parent child : InodeId) (name : Name) (md : Metadata) : Option Metadata :=
  if md.type? child = some .trash then none else some (md.addEdge place parent child name)

/-- Both sides of an edge go: the entry, and the first parents entry that matches the
name. -/
def cutEdge (parent : InodeId) (childName : Name) (entry : Name × InodeId) (md : Metadata) :
    Metadata :=
  (md.modify parent (FSNode.removeEntry childName entry)).modify entry.2
    (FSNode.removeParent parent (md.folds parent) childName)

/-- [SPEC filesystem_node.cc:764-827] -/
def removeEdge (parent : InodeId) (childName : Name) (child : InodeId) (md : Metadata) :
    Option Metadata :=
  (md.find parent childName).bind fun entry =>
    if entry.2 ≠ child ∨ md.type? child = some .trash then none
    else some (md.cutEdge parent childName entry)

/-! ## Coherence of the two sides -/

/-- Every edge is known on both of its sides, once, and the names of a directory differ. -/
structure TwoSided (md : Metadata) : Prop where
  edges : ∀ c p name, (p, name) ∈ md.parents c ↔ (name, c) ∈ md.entries p
  ofDirectory : ∀ p e, e ∈ md.entries p → md.IsDirectory p
  named : ∀ p e, e ∈ md.entries p → e.1 ≠ []
  parentsNodup : ∀ c, (md.parents c).Nodup
  namesNodup : ∀ p, ((md.entries p).map Prod.fst).Nodup

/-- Every edge is known on both of its sides, and the containers of a directory agree. -/
structure Coherent (md : Metadata) : Prop where
  edges : ∀ c p name, (p, name) ∈ md.parents c ↔ (name, c) ∈ md.entries p
  ofDirectory : ∀ p e, e ∈ md.entries p → md.IsDirectory p
  named : ∀ p e, e ∈ md.entries p → e.1 ≠ []
  parentsNodup : ∀ c, (md.parents c).Nodup
  namesNodup : ∀ p, ((md.entries p).map Prod.fst).Nodup
  folded : ∀ p dir, md.node p = some dir → dir.Folded
  detached : ∀ c, md.type? c = some .trash ∨ md.type? c = some .reserved → md.parents c = []
  trashed : ∀ c, md.type? c = some .trash → c ∈ md.trash

/-- The name leads to the entry `stored → child` of the directory, and the first name that
the child has there is the stored one when case does not count. -/
structure Resolved (md : Metadata) (dir : InodeId) (name stored : Name) (child : InodeId) :
    Prop where
  entry : (stored, child) ∈ md.entries dir
  exact : md.folds dir = false → stored = name
  folded : md.folds dir = true → toLowerCase stored = toLowerCase name
  first : md.folds dir = true → md.firstEntryIn dir child = some (dir, stored)

section Lookup

variable {md : Metadata} {dir child : InodeId} {name stored : Name}

theorem IsDirectory.there (isDir : md.IsDirectory dir) : md.type? dir ≠ none := by
  rw [isDir]
  simp

theorem mem_entries {e : Name × InodeId} :
    e ∈ md.entries dir ↔ ∃ d, md.node dir = some d ∧ e ∈ d.entries := by
  unfold entries
  cases md.node dir with
  | none => simp
  | some d => simp

theorem firstEntryIn_eq_some {entry : InodeId × Name} (h : md.firstEntryIn dir child = some entry) :
    entry.1 = dir ∧ entry ∈ md.parents child :=
  ⟨by simpa using find?_some h, mem_of_find?_eq_some h⟩

/-- A node with an entry in the directory has a first one. -/
theorem exists_firstEntryIn (h : (dir, name) ∈ md.parents child) :
    ∃ first, md.firstEntryIn dir child = some (dir, first) := by
  have isSome : (md.firstEntryIn dir child).isSome = true :=
    find?_isSome.mpr ⟨(dir, name), h, by simp⟩
  obtain ⟨entry, found⟩ := Option.isSome_iff_exists.mp isSome
  refine ⟨entry.2, ?_⟩
  rw [found, ← (firstEntryIn_eq_some found).1]

theorem of_node {d : FSNode} (eq : md.node dir = some d) :
    md.entries dir = d.entries ∧ md.folds dir = d.caseInsensitive := by
  rw [entries, folds, eq]
  exact ⟨rfl, rfl⟩

theorem node_of_mem_entries {e : Name × InodeId} (mem : e ∈ md.entries dir) :
    ∃ d, md.node dir = some d ∧ md.entries dir = d.entries ∧ md.folds dir = d.caseInsensitive := by
  obtain ⟨d, there, -⟩ := mem_entries.mp mem
  exact ⟨d, there, of_node there⟩

namespace TwoSided

/-- The entry under its own name. -/
theorem findEntry_eq (h : TwoSided md) {d : FSNode} (eq : md.node dir = some d)
    (mem : (stored, child) ∈ d.entries) : d.findEntry stored = some (stored, child) := by
  have nodup := h.namesNodup dir
  rw [entries, eq] at nodup
  exact find?_key nodup mem

/-- The first name that a node has in a directory is the name of an entry. -/
theorem mem_of_firstEntryIn (h : TwoSided md) {first : Name}
    (is : md.firstEntryIn dir child = some (dir, first)) : (first, child) ∈ md.entries dir :=
  (h.edges child dir first).mp (firstEntryIn_eq_some is).2

/-- A node with an entry exists. -/
theorem child_there (h : TwoSided md) (mem : (stored, child) ∈ md.entries dir) :
    md.type? child ≠ none := by
  intro absent
  have edge : (dir, stored) ∈ md.parents child := (h.edges child dir stored).mpr mem
  have none : md.node child = none := by simpa [type?] using absent
  rw [parents, none] at edge
  cases edge

end TwoSided

namespace Coherent

theorem twoSided (h : Coherent md) : TwoSided md :=
  ⟨h.edges, h.ofDirectory, h.named, h.parentsNodup, h.namesNodup⟩

theorem of_twoSided (sides : TwoSided md) (folded : ∀ p dir, md.node p = some dir → dir.Folded)
    (detached : ∀ c, md.type? c = some .trash ∨ md.type? c = some .reserved → md.parents c = [])
    (trashed : ∀ c, md.type? c = some .trash → c ∈ md.trash) : Coherent md :=
  ⟨sides.edges, sides.ofDirectory, sides.named, sides.parentsNodup, sides.namesNodup, folded,
    detached, trashed⟩

section

variable (h : Coherent md)
include h

/-- The lower-case container finds an entry by its lower-case name. -/
theorem findLowercaseContainer_eq {d : FSNode}
    (there : md.node dir = some d) (folding : d.caseInsensitive = true)
    (mem : (stored, child) ∈ d.entries) (eq : toLowerCase stored = toLowerCase name) :
    d.findLowercaseContainer name = some (toLowerCase name, child) := by
  have folded := h.folded dir d there
  rw [findLowercaseContainer, if_pos folding]
  exact find?_key (folded.nodup_lowerCase folding) (folded.mem_lowerCase folding mem eq)

/-- What the lower-case container finds is an entry, up to case. -/
theorem exists_of_findLowercaseContainer {d : FSNode} (there : md.node dir = some d) {key : Name}
    (found : d.findLowercaseContainer name = some (key, child)) : d.caseInsensitive = true ∧
      ∃ stored, (stored, child) ∈ d.entries ∧ toLowerCase stored = toLowerCase name := by
  unfold findLowercaseContainer at found
  by_cases folding : d.caseInsensitive = true
  · rw [if_pos folding] at found
    have named : key = toLowerCase name := by simpa using find?_some found
    have mem := ((h.folded dir d there).lowered folding).mem_iff.mp (mem_of_find?_eq_some found)
    obtain ⟨⟨stored, c⟩, inEntries, eq⟩ := mem_map.mp mem
    cases eq
    exact ⟨folding, stored, inEntries, named⟩
  · rw [if_neg folding] at found
    cases found

/-- The look-up of a name that leads to an entry. -/
theorem find_eq (resolved : Resolved md dir name stored child) :
    md.find dir name = some (stored, child) := by
  obtain ⟨d, there, sameEntries, sameFolds⟩ := node_of_mem_entries resolved.entry
  have mem := sameEntries ▸ resolved.entry
  rw [find, there, Option.bind_some]
  by_cases folding : d.caseInsensitive = true
  · have folds := sameFolds.trans folding
    rw [if_pos folding,
      h.findLowercaseContainer_eq there folding mem (resolved.folded folds), Option.bind_some]
    have first : md.getChildName dir child = stored := by
      rw [getChildName, resolved.first folds]
      rfl
    rw [first]
    exact h.twoSided.findEntry_eq there mem
  · have folds := sameFolds.trans (Bool.eq_false_iff.mpr folding)
    rw [if_neg folding, ← resolved.exact folds]
    exact h.twoSided.findEntry_eq there mem

/-- A name that is found in a directory leads to an entry; when case does not count, the
entry has the first name that its node has there, and the node has another name there
that is the given one up to case. -/
theorem find_cases (found : md.find dir name = some (stored, child)) :
    (md.folds dir = false ∧ stored = name ∧ (stored, child) ∈ md.entries dir) ∨
    (md.folds dir = true ∧ md.firstEntryIn dir child = some (dir, stored) ∧
      ∃ variant, (variant, child) ∈ md.entries dir ∧ toLowerCase variant = toLowerCase name) := by
  obtain ⟨d, there, found⟩ := Option.bind_eq_some_iff.mp found
  obtain ⟨sameEntries, sameFolds⟩ := of_node there
  by_cases folding : d.caseInsensitive = true
  · rw [if_pos folding] at found
    obtain ⟨⟨key, c⟩, low, entry⟩ := Option.bind_eq_some_iff.mp found
    obtain ⟨-, variant, mem, eq⟩ := h.exists_of_findLowercaseContainer there low
    have edge := (h.edges c dir variant).mpr (sameEntries ▸ mem)
    obtain ⟨first, is⟩ := exists_firstEntryIn edge
    have firstMem : (first, c) ∈ d.entries := sameEntries ▸ h.twoSided.mem_of_firstEntryIn is
    have named : md.getChildName dir c = first := by rw [getChildName, is]; rfl
    rw [named, h.twoSided.findEntry_eq there firstMem] at entry
    cases entry
    exact .inr ⟨sameFolds.trans folding, is, variant, sameEntries ▸ mem, eq⟩
  · rw [if_neg folding] at found
    have named : stored = name := by simpa using find?_some found
    refine .inl ⟨sameFolds.trans (Bool.eq_false_iff.mpr folding), named, ?_⟩
    rw [sameEntries]
    exact mem_of_find?_eq_some found

theorem mem_of_find (found : md.find dir name = some (stored, child)) :
    (stored, child) ∈ md.entries dir := by
  rcases h.find_cases found with ⟨-, -, mem⟩ | ⟨-, first, -⟩
  · exact mem
  · exact h.twoSided.mem_of_firstEntryIn first

/-- Only directories have entries. -/
theorem entries_of_not_directory (other : ¬ md.IsDirectory dir) : md.entries dir = [] :=
  eq_nil_iff_forall_not_mem.mpr fun e mem => other (h.ofDirectory dir e mem)

/-- A name that leads to a node with one parents entry. -/
theorem resolved_of_single {edge : InodeId × Name}
    (single : md.parents child = [edge]) (found : md.find dir name = some (stored, child)) :
    Resolved md dir name stored child := by
  rcases h.find_cases found with ⟨folds, eq, mem⟩ | ⟨folds, first, variant, mem, eq⟩
  · exact ⟨mem, fun _ => eq, fun yes => absurd yes (by simp [folds]),
      fun yes => absurd yes (by simp [folds])⟩
  have stored_edge := (firstEntryIn_eq_some first).2
  have variant_edge := (h.edges child dir variant).mpr mem
  rw [single, mem_singleton] at stored_edge variant_edge
  have names : variant = stored := congrArg Prod.snd (variant_edge.trans stored_edge.symm)
  subst names
  exact ⟨mem, fun no => absurd no (by simp [folds]), fun _ => eq, fun _ => first⟩

/-- The stored name of an entry leads to the entry. -/
theorem resolved_of_first (folds : md.folds dir = true)
    (first : md.firstEntryIn dir child = some (dir, stored)) :
    Resolved md dir stored stored child :=
  ⟨h.twoSided.mem_of_firstEntryIn first, fun no => absurd no (by simp [folds]), fun _ => rfl,
    fun _ => first⟩

end

end Coherent

/-- The name is new in the directory, up to case where case does not count. -/
structure Fresh (md : Metadata) (dir : InodeId) (name : Name) : Prop where
  plain : name ∉ (md.entries dir).map Prod.fst
  folded : md.folds dir = true → toLowerCase name ∉ (md.entries dir).map fun e => toLowerCase e.1

/-- A name that is not found is new. -/
theorem Coherent.fresh (h : Coherent md) (unused : md.isNameUsed dir name = false) :
    Fresh md dir name := by
  have notFound : md.find dir name = none := by
    simpa [isNameUsed, lookup] using unused
  have folded : md.folds dir = true →
      toLowerCase name ∉ (md.entries dir).map fun e => toLowerCase e.1 := by
    intro folds used
    obtain ⟨⟨variant, c⟩, mem, eq⟩ := mem_map.mp used
    obtain ⟨d, there, sameEntries, sameFolds⟩ := node_of_mem_entries mem
    obtain ⟨first, is⟩ := exists_firstEntryIn ((h.edges c dir variant).mpr mem)
    have folding := sameFolds.symm.trans folds
    have named : md.getChildName dir c = first := by rw [getChildName, is]; rfl
    rw [find, there, Option.bind_some, if_pos folding,
      h.findLowercaseContainer_eq there folding (sameEntries ▸ mem) eq, Option.bind_some,
      named, h.twoSided.findEntry_eq there
        (sameEntries ▸ h.twoSided.mem_of_firstEntryIn is)] at notFound
    cases notFound
  refine ⟨fun used => ?_, folded⟩
  obtain ⟨⟨n, c⟩, mem, eq⟩ := mem_map.mp used
  obtain ⟨d, there, sameEntries, sameFolds⟩ := node_of_mem_entries mem
  by_cases folding : d.caseInsensitive = true
  · exact folded (sameFolds.trans folding) (mem_map.mpr ⟨(n, c), mem, by rw [← eq]⟩)
  have named : n = name := eq
  subst named
  rw [find, there, Option.bind_some, if_neg folding,
    h.twoSided.findEntry_eq there (sameEntries ▸ mem)] at notFound
  cases notFound

end Lookup

end Metadata

/-! ## The containers of one directory -/

namespace FSNode

/-- The lower-case container has one entry for every lower-case name. -/
structure Listed (dir : FSNode) : Prop where
  sensitive : dir.caseInsensitive = false → dir.lowerCaseEntries = []
  keys : (dir.lowerCaseEntries.map Prod.fst).Nodup
  sound : ∀ low ∈ dir.lowerCaseEntries,
    ∃ stored, (stored, low.2) ∈ dir.entries ∧ toLowerCase stored = low.1
  complete : dir.caseInsensitive = true →
    ∀ e ∈ dir.entries, toLowerCase e.1 ∈ dir.lowerCaseEntries.map Prod.fst

namespace Listed

variable {dir : FSNode} {name : Name}

/-- Without a lower-case container. -/
theorem of_sensitive (sensitive : dir.caseInsensitive = false) (empty : dir.lowerCaseEntries = []) :
    Listed dir :=
  ⟨fun _ => empty, by simp [empty], by simp [empty], fun yes => absurd yes (by simp [sensitive])⟩

/-- The lower-case container finds a node with such a name. -/
theorem exists_of_find (h : Listed dir) {key : Name} {child : InodeId}
    (found : dir.findLowercaseContainer name = some (key, child)) :
    ∃ stored, (stored, child) ∈ dir.entries ∧ toLowerCase stored = toLowerCase name := by
  unfold findLowercaseContainer at found
  split at found
  · have named : key = toLowerCase name := by simpa using find?_some found
    obtain ⟨stored, mem, eq⟩ := h.sound _ (mem_of_find?_eq_some found)
    exact ⟨stored, mem, eq.trans named⟩
  · cases found

/-- The lower-case container finds every name. -/
theorem exists_find (h : Listed dir) (folding : dir.caseInsensitive = true) {e : Name × InodeId}
    (mem : e ∈ dir.entries) (eq : toLowerCase e.1 = toLowerCase name) :
    ∃ low, dir.findLowercaseContainer name = some low := by
  obtain ⟨low, inside, key⟩ := mem_map.mp (h.complete folding e mem)
  rw [findLowercaseContainer, if_pos folding, ← Option.isSome_iff_exists, find?_isSome]
  exact ⟨low, inside, by simp [key, eq]⟩

theorem addEntry (h : Listed dir) (place : Place) {child : InodeId}
    (new : dir.caseInsensitive = true →
      toLowerCase name ∉ dir.entries.map fun e => toLowerCase e.1) :
    Listed (dir.addEntry place name child) := by
  have mem : ∀ e, e ∈ (dir.addEntry place name child).entries ↔
      e = (name, child) ∨ e ∈ dir.entries :=
    fun e => (insertAt_perm place.1 _ _).mem_iff.trans mem_cons
  cases folding : dir.caseInsensitive with
  | false =>
    refine of_sensitive folding ?_
    simp only [FSNode.addEntry, folding, Bool.false_eq_true]
    exact h.sensitive folding
  | true =>
    have perm : (dir.addEntry place name child).lowerCaseEntries.Perm
        ((toLowerCase name, child) :: dir.lowerCaseEntries) := by
      simp only [FSNode.addEntry, folding]
      exact insertAt_perm place.2 _ _
    refine ⟨fun no => Bool.noConfusion (folding.symm.trans no), ?_, ?_, ?_⟩
    · refine (perm.map Prod.fst).nodup_iff.mpr (nodup_cons.mpr ⟨fun used => ?_, h.keys⟩)
      obtain ⟨low, inside, key⟩ := mem_map.mp used
      obtain ⟨stored, old, eq⟩ := h.sound low inside
      exact new folding (mem_map.mpr ⟨_, old, eq.trans key⟩)
    · intro low inside
      rcases mem_cons.mp (perm.mem_iff.mp inside) with rfl | old
      · exact ⟨name, (mem _).mpr (.inl rfl), rfl⟩
      · obtain ⟨stored, there, eq⟩ := h.sound low old
        exact ⟨stored, (mem _).mpr (.inr there), eq⟩
    · intro _ e inside
      rw [(perm.map Prod.fst).mem_iff, map_cons, mem_cons]
      rcases (mem e).mp inside with rfl | old
      · exact .inl rfl
      · exact .inr (h.complete folding e old)

/-- A sole entry goes with the lower-case entry of its name. -/
theorem removeEntry (h : Listed dir) {e : Name × InodeId}
    (nodup : dir.caseInsensitive = true → dir.entries.Nodup) (mem : e ∈ dir.entries)
    (only : dir.caseInsensitive = true →
      ∀ other ∈ dir.entries, toLowerCase other.1 = toLowerCase e.1 → other = e) :
    Listed (dir.removeEntry e.1 e) := by
  cases folding : dir.caseInsensitive with
  | false =>
    refine of_sensitive folding ?_
    simp only [FSNode.removeEntry, folding, Bool.false_eq_true]
    exact h.sensitive folding
  | true =>
    have erased : (dir.removeEntry e.1 e).lowerCaseEntries =
        dir.lowerCaseEntries.eraseP (·.1 = toLowerCase e.1) := by
      simp only [FSNode.removeEntry, folding, if_true]
    obtain ⟨low, inside, key⟩ := mem_map.mp (h.complete folding e mem)
    have erase : dir.lowerCaseEntries.eraseP (fun other => decide (other.1 = toLowerCase e.1)) =
        dir.lowerCaseEntries.erase low := by
      rw [← key]
      exact eraseP_key h.keys inside
    have lowNodup : dir.lowerCaseEntries.Nodup := h.keys.of_map _
    have memErase : ∀ other, other ∈ (dir.removeEntry e.1 e).entries ↔
        other ≠ e ∧ other ∈ dir.entries :=
      fun other => (nodup folding).mem_erase_iff
    refine ⟨fun no => Bool.noConfusion (folding.symm.trans no), ?_, ?_, ?_⟩
    · rw [erased, erase]
      exact nodup_map_erase h.keys
    · intro other left
      rw [erased, erase, lowNodup.mem_erase_iff] at left
      obtain ⟨stored, there, eq⟩ := h.sound other left.2
      refine ⟨stored, (memErase _).mpr ⟨?_, there⟩, eq⟩
      rintro rfl
      exact left.1 (inj_on_of_nodup_map h.keys left.2 inside (eq.symm.trans key.symm))
    · intro _ other left
      obtain ⟨differs, there⟩ := (memErase other).mp left
      obtain ⟨otherLow, otherInside, otherKey⟩ := mem_map.mp (h.complete folding other there)
      rw [erased, erase, mem_map]
      refine ⟨otherLow, lowNodup.mem_erase_iff.mpr ⟨?_, otherInside⟩, otherKey⟩
      rintro rfl
      exact differs (only folding other there (otherKey.symm.trans key))

/-- Entries go into the lower-case container unless one of their name is there. -/
theorem foldl_addLowerCase (folding : dir.caseInsensitive = true)
    (empty : dir.lowerCaseEntries = []) (entries : List (Name × InodeId)) :
    ∃ lower, entries.foldl addLowerCase dir = { dir with lowerCaseEntries := lower } ∧
      (lower.map Prod.fst).Nodup ∧ (∀ low ∈ lower, ∃ e ∈ entries, low = (toLowerCase e.1, e.2)) ∧
      ∀ e ∈ entries, toLowerCase e.1 ∈ lower.map Prod.fst := by
  -- the last entry meets the container that the others have filled
  induction entries using reverseRecOn with
  | nil => exact ⟨[], by rw [foldl_nil, ← empty], nodup_nil, by simp, by simp⟩
  | append_singleton entries entry ih =>
    obtain ⟨lower, filled, nodup, origin, complete⟩ := ih
    have prev : ∀ low ∈ lower, ∃ e ∈ entries ++ [entry], low = (toLowerCase e.1, e.2) := by
      intro low inside
      obtain ⟨e, mem, eq⟩ := origin low inside
      exact ⟨e, mem_append_left _ mem, eq⟩
    rw [foldl_append, filled, foldl_cons, foldl_nil, addLowerCase, findLowercaseContainer,
      if_pos folding]
    cases found : lower.find? fun low => low.1 = toLowerCase (toLowerCase entry.1) with
    | some low =>
      have key : low.1 = toLowerCase entry.1 := by simpa using find?_some found
      refine ⟨lower, rfl, nodup, prev, forall_mem_append.mpr ⟨complete, ?_⟩⟩
      exact forall_mem_singleton.mpr (mem_map.mpr ⟨low, mem_of_find?_eq_some found, key⟩)
    | none =>
      have absent : toLowerCase entry.1 ∉ lower.map Prod.fst := by
        intro used
        obtain ⟨low, inside, key⟩ := mem_map.mp used
        exact find?_eq_none.mp found low inside (by simp [key])
      refine ⟨lower ++ [(toLowerCase entry.1, entry.2)], rfl, ?_, forall_mem_append.mpr ⟨prev, ?_⟩,
        forall_mem_append.mpr ⟨fun e mem => ?_, ?_⟩⟩
      · rw [map_append, map_singleton, ← concat_eq_append]
        exact nodup.concat absent
      · exact forall_mem_singleton.mpr ⟨entry, by simp, rfl⟩
      · exact map_append ▸ mem_append_left _ (complete e mem)
      · simp

/-- A switch fills the lower-case container, or empties it. -/
theorem useCase (h : Listed dir) (caseInsensitive : Bool) :
    Listed (dir.useCase caseInsensitive) := by
  unfold FSNode.useCase
  by_cases eq : dir.caseInsensitive = caseInsensitive
  · rw [if_pos eq]
    exact h
  rw [if_neg eq, FSNode.updateLowerCaseEntries]
  cases caseInsensitive with
  | false => exact of_sensitive rfl rfl
  | true =>
    have empty := h.sensitive (by simpa using eq)
    obtain ⟨lower, filled, nodup, origin, complete⟩ := foldl_addLowerCase
      (show FSNode.caseInsensitive { dir with caseInsensitive := true } = true from rfl)
      empty dir.entries
    rw [filled]
    refine ⟨fun no => absurd no (by simp), nodup, ?_, fun _ => complete⟩
    intro low inside
    obtain ⟨e, mem, rfl⟩ := origin low inside
    exact ⟨e.1, mem, rfl⟩

end Listed

/-- Filling the lower-case container changes nothing else. -/
theorem exists_foldl_addLowerCase (entries : List (Name × InodeId)) : ∀ (dir : FSNode), ∃ lower,
      entries.foldl addLowerCase dir = { dir with lowerCaseEntries := lower } := by
  induction entries with
  | nil => exact fun dir => ⟨dir.lowerCaseEntries, rfl⟩
  | cons entry entries ih =>
    intro dir
    obtain ⟨lower, rest⟩ := ih (dir.addLowerCase entry)
    refine ⟨lower, ?_⟩
    rw [foldl_cons, rest, addLowerCase]
    split <;> rfl

/-- A switch changes the flag and the lower-case container only. -/
theorem exists_useCase (dir : FSNode) (caseInsensitive : Bool) :
    ∃ lower, dir.useCase caseInsensitive =
      { dir with caseInsensitive := caseInsensitive, lowerCaseEntries := lower } := by
  unfold useCase updateLowerCaseEntries
  by_cases eq : dir.caseInsensitive = caseInsensitive
  · exact ⟨dir.lowerCaseEntries, by rw [if_pos eq, ← eq]⟩
  · rw [if_neg eq]
    split
    · exact exists_foldl_addLowerCase dir.entries { dir with caseInsensitive := caseInsensitive }
    · exact ⟨[], rfl⟩

namespace Folded

variable {dir : FSNode}

theorem listed (h : Folded dir) : Listed dir where
  sensitive := h.sensitive
  keys := by
    cases folding : dir.caseInsensitive with
    | false => simp [h.sensitive folding]
    | true => exact h.nodup_lowerCase folding
  sound := by
    intro low inside
    cases folding : dir.caseInsensitive with
    | false => simp [h.sensitive folding] at inside
    | true =>
      obtain ⟨e, mem, rfl⟩ := mem_map.mp ((h.lowered folding).mem_iff.mp inside)
      exact ⟨e.1, mem, rfl⟩
  complete := fun folding _ mem => mem_map_of_mem (h.mem_lowerCase folding mem rfl)

theorem of_listed (h : Listed dir)
    (distinct : dir.caseInsensitive = true → (dir.entries.map fun e => toLowerCase e.1).Nodup) :
    Folded dir := by
  refine ⟨h.sensitive, distinct, fun folding => ?_⟩
  have image : (dir.entries.map fun e => (toLowerCase e.1, e.2)).Nodup := by
    refine Nodup.of_map Prod.fst ?_
    rw [map_map]
    exact distinct folding
  refine (perm_ext_iff_of_nodup (h.keys.of_map _) image).mpr fun low => ⟨?_, fun mem => ?_⟩
  · intro inside
    obtain ⟨stored, mem, eq⟩ := h.sound low inside
    exact mem_map.mpr ⟨_, mem, Prod.ext eq rfl⟩
  · obtain ⟨e, old, rfl⟩ := mem_map.mp mem
    obtain ⟨low, inside, key⟩ := mem_map.mp (h.complete folding e old)
    obtain ⟨stored, there, eq⟩ := h.sound low inside
    obtain rfl := inj_on_of_nodup_map (distinct folding) there old (eq.trans key)
    exact eq ▸ inside

theorem addEntry (h : Folded dir) (place : Place) {name : Name} {child : InodeId}
    (new : dir.caseInsensitive = true →
      toLowerCase name ∉ dir.entries.map fun e => toLowerCase e.1) :
    Folded (dir.addEntry place name child) :=
  of_listed (h.listed.addEntry place new) fun yes =>
    nodup_map_insertAt (x := (name, child)) place.1 (h.distinct yes) (new yes)

/-- The removed lower-case entry is the one of the removed entry. -/
theorem removeEntry (h : Folded dir) {childName stored : Name} {child : InodeId}
    (mem : (stored, child) ∈ dir.entries)
    (eq : dir.caseInsensitive = true → toLowerCase stored = toLowerCase childName) :
    Folded (dir.removeEntry childName (stored, child)) := by
  have asStored : dir.removeEntry childName (stored, child) =
      dir.removeEntry stored (stored, child) := by
    unfold FSNode.removeEntry
    split
    next folding => rw [eq folding]
    · rfl
  rw [asStored]
  refine of_listed (h.listed.removeEntry (fun folding => (h.distinct folding).of_map _) mem ?_)
    fun yes => nodup_map_erase (h.distinct yes)
  exact fun folding _ there => inj_on_of_nodup_map (h.distinct folding) there mem

/-- Switching the way of comparing names. -/
theorem useCase (h : Folded dir) (caseInsensitive : Bool)
    (distinct : caseInsensitive = true → (dir.entries.map fun e => toLowerCase e.1).Nodup) :
    Folded (dir.useCase caseInsensitive) := by
  obtain ⟨lower, switched⟩ := exists_useCase dir caseInsensitive
  refine of_listed (h.listed.useCase caseInsensitive) ?_
  rw [switched]
  exact distinct

end Folded

end FSNode

/-! ## Linking and removing an edge -/

namespace Metadata

/-- The same nodes with the same edges; directories may compare names differently. -/
structure SameEdges (md md' : Metadata) : Prop where
  type : ∀ c, md'.type? c = md.type? c
  parents : ∀ c, md'.parents c = md.parents c
  entries : ∀ c, md'.entries c = md.entries c
  trash : md'.trash = md.trash

/-- The edge `name → child` of the directory is new. -/
structure Linked (md md' : Metadata) (dir : InodeId) (name : Name) (child : InodeId) : Prop where
  type : ∀ c, md'.type? c = md.type? c
  parents : ∀ c, md'.parents c =
    if c = child then md.parents child ++ [(dir, name)] else md.parents c
  entries : ∀ p e, e ∈ md'.entries p ↔ e ∈ md.entries p ∨ p = dir ∧ e = (name, child)
  trash : md'.trash = md.trash

/-- The edge `stored → child` of the directory is gone. -/
structure Removed (md md' : Metadata) (dir : InodeId) (stored : Name) (child : InodeId) :
    Prop where
  type : ∀ c, md'.type? c = md.type? c
  parents : ∀ c, md'.parents c =
    if c = child then (md.parents child).erase (dir, stored) else md.parents c
  entries : ∀ p, md'.entries p =
    if p = dir then (md.entries dir).erase (stored, child) else md.entries p
  folds : ∀ p, md'.folds p = md.folds p
  trash : md'.trash = md.trash

variable {md : Metadata} {dir child : InodeId} {name stored : Name}

/-- What holds for all nodes and for the changed one holds after the change. -/
theorem forall_modify {P : FSNode → Prop} {id : InodeId} {f : FSNode → FSNode}
    (all : ∀ p d, md.node p = some d → P d) (changed : ∀ d, md.node id = some d → P (f d)) :
    ∀ p d, (md.modify id f).node p = some d → P d := by
  intro p d there
  rw [node_modify] at there
  by_cases eq : p = id
  · rw [if_pos eq] at there
    obtain ⟨d', there', rfl⟩ := Option.map_eq_some_iff.mp there
    exact changed d' there'
  · rw [if_neg eq] at there
    exact all p d there

/-- The same edges between other nodes are coherent, when directories stay directories and
nodes without links may be in the trash. -/
theorem Coherent.of_same {md' : Metadata} (h : Coherent md)
    (parents : ∀ c, md'.parents c = md.parents c) (entries : ∀ c, md'.entries c = md.entries c)
    (directories : ∀ p, md.entries p ≠ [] → md'.type? p = md.type? p)
    (folded : ∀ p d, md'.node p = some d → d.Folded)
    (detached : ∀ c, md'.type? c = some .trash ∨ md'.type? c = some .reserved → md.parents c = [])
    (trashed : ∀ c, md'.type? c = some .trash → c ∈ md'.trash) : Coherent md' := by
  refine ⟨?_, ?_, ?_, ?_, ?_, folded, ?_, trashed⟩
  · simpa only [parents, entries] using h.edges
  · intro p e mem
    rw [entries] at mem
    rw [IsDirectory, directories p (ne_nil_of_mem mem)]
    exact h.ofDirectory p e mem
  · simpa only [entries] using h.named
  · simpa only [parents] using h.parentsNodup
  · simpa only [entries] using h.namesNodup
  · simpa only [parents] using detached

/-- A switch changes no edges. -/
theorem sameEdges_useCase (md : Metadata) (dir : InodeId) (caseInsensitive : Bool) :
    SameEdges md (md.modify dir (useCase caseInsensitive)) := by
  have keeps : ∀ n : FSNode, (n.useCase caseInsensitive).type = n.type ∧
      (n.useCase caseInsensitive).parents = n.parents ∧
      (n.useCase caseInsensitive).entries = n.entries := by
    intro n
    obtain ⟨lower, eq⟩ := n.exists_useCase caseInsensitive
    rw [eq]
    exact ⟨rfl, rfl, rfl⟩
  exact ⟨fun c => type?_modify fun n => (keeps n).1, fun c => parents_modify fun n => (keeps n).2.1,
    fun c => entries_modify fun n => (keeps n).2.2, trash_modify⟩

theorem TwoSided.of_sameEdges {md' : Metadata} (h : TwoSided md) (eq : SameEdges md md') :
    TwoSided md' := by
  refine ⟨?_, ?_, ?_, ?_, ?_⟩
  · simpa only [eq.parents, eq.entries] using h.edges
  · simpa only [eq.entries, IsDirectory, eq.type] using h.ofDirectory
  · simpa only [eq.entries] using h.named
  · simpa only [eq.parents] using h.parentsNodup
  · simpa only [eq.entries] using h.namesNodup

theorem Coherent.useCase (h : Coherent md) (caseInsensitive : Bool)
    (distinct : caseInsensitive = true → ((md.entries dir).map fun e => toLowerCase e.1).Nodup) :
    Coherent (md.modify dir (useCase caseInsensitive)) ∧
      SameEdges md (md.modify dir (useCase caseInsensitive)) := by
  have eq := sameEdges_useCase md dir caseInsensitive
  refine ⟨h.of_same eq.parents eq.entries (fun p _ => eq.type p) ?_ ?_ ?_, eq⟩
  · refine forall_modify h.folded fun d there => (h.folded dir d there).useCase _ fun yes => ?_
    have := distinct yes
    rw [entries, there] at this
    exact this
  · simpa only [eq.type] using h.detached
  · simpa only [eq.type, eq.trash] using h.trashed

/-! A change of the entries of one node and of the parents of another one. -/

section EdgeChange

variable {f g : FSNode → FSNode}

theorem type?_edgeChange (f_type : ∀ n, (f n).type = n.type) (g_type : ∀ n, (g n).type = n.type)
    (c : InodeId) : ((md.modify dir f).modify child g).type? c = md.type? c := by
  rw [type?_modify g_type, type?_modify f_type]

theorem parents_edgeChange (change : List (InodeId × Name) → List (InodeId × Name))
    (f_type : ∀ n, (f n).type = n.type) (f_parents : ∀ n, (f n).parents = n.parents)
    (g_parents : ∀ n, (g n).parents = change n.parents) (ne : md.type? child ≠ none)
    (c : InodeId) : ((md.modify dir f).modify child g).parents c =
      if c = child then change (md.parents child) else md.parents c := by
  rw [parents_modify_eq change g_parents (by rwa [type?_modify f_type]),
    parents_modify f_parents, parents_modify f_parents]

theorem entries_edgeChange (change : List (Name × InodeId) → List (Name × InodeId))
    (f_entries : ∀ n, (f n).entries = change n.entries) (g_entries : ∀ n, (g n).entries = n.entries)
    (ne : md.type? dir ≠ none) (p : InodeId) : ((md.modify dir f).modify child g).entries p =
      if p = dir then change (md.entries dir) else md.entries p := by
  rw [entries_modify g_entries, entries_modify_eq change f_entries ne]

theorem folds_edgeChange (f_folds : ∀ n, (f n).caseInsensitive = n.caseInsensitive)
    (g_folds : ∀ n, (g n).caseInsensitive = n.caseInsensitive) (p : InodeId) :
    ((md.modify dir f).modify child g).folds p = md.folds p := by
  rw [folds_modify g_folds, folds_modify f_folds]

theorem forall_edgeChange {P : FSNode → Prop} (all : ∀ p d, md.node p = some d → P d)
    (f_keeps : ∀ d, md.node dir = some d → P (f d)) (g_keeps : ∀ d : FSNode, P d → P (g d)) :
    ∀ p d, ((md.modify dir f).modify child g).node p = some d → P d := by
  have first := forall_modify all f_keeps
  exact forall_modify first fun d there => g_keeps d (first child d there)

end EdgeChange

theorem entries_addEdge (place : Place) (ne : md.type? dir ≠ none) (p : InodeId) :
    (md.addEdge place dir child name).entries p =
      if p = dir then (md.entries dir).insertIdx (min place.1 (md.entries dir).length) (name, child)
      else md.entries p := by
  refine entries_edgeChange (fun l => l.insertIdx (min place.1 l.length) (name, child)) ?_ ?_ ne p
  · exact fun _ => rfl
  · exact fun _ => rfl

theorem linked_addEdge (place : Place) (dirThere : md.type? dir ≠ none)
    (ne : md.type? child ≠ none) :
    Linked md (md.addEdge place dir child name) dir name child := by
  refine ⟨?_, ?_, fun p e => ?_, ?_⟩
  · exact type?_edgeChange (fun _ => rfl) (fun _ => rfl)
  · exact parents_edgeChange (fun l => l ++ [(dir, name)]) (fun _ => rfl) (fun _ => rfl)
      (fun _ => rfl) ne
  · rw [entries_addEdge place dirThere]
    by_cases eq : p = dir
    · rw [if_pos eq, (insertAt_perm place.1 _ _).mem_iff, mem_cons, eq]
      tauto
    · rw [if_neg eq]
      tauto
  · rw [addEdge, trash_modify, trash_modify]

/-- Both sides of an edge with a new name. -/
theorem TwoSided.addEdge (h : TwoSided md) (place : Place) (isDir : md.IsDirectory dir)
    (there : md.type? child ≠ none) (ne : name ≠ [])
    (fresh : name ∉ (md.entries dir).map Prod.fst) :
    TwoSided (md.addEdge place dir child name) := by
  have linked : Linked md (md.addEdge place dir child name) dir name child :=
    linked_addEdge place isDir.there there
  have notYet : (dir, name) ∉ md.parents child := fun mem =>
    fresh (mem_map_of_mem ((h.edges child dir name).mp mem))
  refine ⟨?_, ?_, ?_, ?_, ?_⟩
  · intro c p n
    rw [linked.parents, linked.entries, ← h.edges]
    by_cases eq : c = child
    · simp [eq]
    · simp [eq]
  · intro p e mem
    rw [IsDirectory, linked.type]
    rcases (linked.entries p e).mp mem with old | ⟨rfl, rfl⟩
    · exact h.ofDirectory p e old
    · exact isDir
  · intro p e mem
    rcases (linked.entries p e).mp mem with old | ⟨rfl, rfl⟩
    · exact h.named p e old
    · exact ne
  · intro c
    rw [linked.parents]
    split
    · rw [nodup_append]
      refine ⟨h.parentsNodup child, by simp, fun e mem e' mem' eq => ?_⟩
      rw [mem_singleton] at mem'
      exact notYet (mem' ▸ eq ▸ mem)
    · exact h.parentsNodup c
  · intro p
    rw [entries_addEdge place isDir.there]
    split
    · exact nodup_map_insertAt place.1 (h.namesNodup dir) fresh
    · exact h.namesNodup p

/-- Linking a node under a new name. -/
theorem Coherent.link (h : Coherent md) (place : Place) (isDir : md.IsDirectory dir)
    (there : md.type? child ≠ none) (live : md.type? child ≠ some .trash)
    (notReserved : md.type? child ≠ some .reserved) (ne : name ≠ []) (fresh : Fresh md dir name) :
    ∃ md', md.link place dir child name = some md' ∧ Coherent md' ∧
      Linked md md' dir name child := by
  have linked : Linked md (md.addEdge place dir child name) dir name child :=
    linked_addEdge place isDir.there there
  have sides := h.twoSided.addEdge place isDir there ne fresh.plain
  refine ⟨md.addEdge place dir child name, if_neg live, .of_twoSided sides ?_ ?_ ?_, linked⟩
  · refine forall_edgeChange h.folded (fun d there => ?_) fun d folded =>
      ⟨folded.sensitive, folded.distinct, folded.lowered⟩
    refine (h.folded dir d there).addEntry place fun folding => ?_
    have new := fresh.folded (by rw [folds, there]; exact folding)
    rw [entries, there] at new
    exact new
  · intro c kind
    rw [linked.type] at kind
    rw [linked.parents]
    by_cases eq : c = child
    · subst eq
      rcases kind with trash | reserved
      · exact absurd trash live
      · exact absurd reserved notReserved
    · rw [if_neg eq]
      exact h.detached c kind
  · intro c kind
    rw [linked.type] at kind
    rw [linked.trash]
    exact h.trashed c kind

/-- The first parents entry that matches the edge is the one of the entry. -/
theorem Resolved.eraseP_parents (resolved : Resolved md dir name stored child) :
    (md.parents child).eraseP (matchesEdge dir (md.folds dir) name) =
      (md.parents child).erase (dir, stored) := by
  cases folds : md.folds dir with
  | true =>
    have implies : ∀ e, matchesEdge dir true name e = true →
        decide (e.1 = dir) = true := by
      intro e matching
      rw [matchesEdge, Bool.and_eq_true] at matching
      exact matching.1
    refine eraseP_eq_erase implies ?_ (resolved.first folds)
    simp [matchesEdge, resolved.folded folds]
  | false =>
    have eq : matchesEdge dir false name = fun e => (dir, name) == e := by
      funext e
      rw [Bool.eq_iff_iff, beq_iff_eq, matchesEdge, Bool.and_eq_true]
      simp only [decide_eq_true_eq, Bool.false_eq_true, if_false, Prod.ext_iff]
      exact ⟨fun h => ⟨h.1.symm, h.2.symm⟩, fun h => ⟨h.1.symm, h.2.symm⟩⟩
    rw [resolved.exact folds, erase_eq_eraseP, eq]

theorem removed_cutEdge (resolved : Resolved md dir name stored child)
    (dirThere : md.type? dir ≠ none) (ne : md.type? child ≠ none) :
    Removed md (md.cutEdge dir name (stored, child)) dir stored child := by
  unfold cutEdge
  refine ⟨?_, ?_, ?_, ?_, ?_⟩
  · exact type?_edgeChange (fun _ => rfl) (fun _ => rfl)
  · rw [← resolved.eraseP_parents]
    exact parents_edgeChange (fun l => l.eraseP (matchesEdge dir (md.folds dir) name))
      (fun _ => rfl) (fun _ => rfl) (fun _ => rfl) ne
  · exact entries_edgeChange (fun l => l.erase (stored, child)) (fun _ => rfl) (fun _ => rfl)
      dirThere
  · exact folds_edgeChange (fun _ => rfl) (fun _ => rfl)
  · rw [trash_modify, trash_modify]

/-- A node with an entry exists and is not in the trash. -/
theorem Coherent.child_live (h : Coherent md) (mem : (stored, child) ∈ md.entries dir) :
    md.type? child ≠ none ∧ md.type? child ≠ some .trash ∧ md.type? child ≠ some .reserved := by
  have edge : (dir, stored) ∈ md.parents child := (h.edges child dir stored).mpr mem
  refine ⟨h.twoSided.child_there mem, fun trash => ?_, fun reserved => ?_⟩
  · rw [h.detached child (.inl trash)] at edge
    cases edge
  · rw [h.detached child (.inr reserved)] at edge
    cases edge

/-- Both sides of an edge go. -/
theorem TwoSided.cutEdge (h : TwoSided md) (resolved : Resolved md dir name stored child) :
    TwoSided (md.cutEdge dir name (stored, child)) := by
  have dirThere := (h.ofDirectory dir _ resolved.entry).there
  have gone := removed_cutEdge resolved dirThere (h.child_there resolved.entry)
  have entriesNodup : (md.entries dir).Nodup := (h.namesNodup dir).of_map _
  have fewer : ∀ p e, e ∈ (md.cutEdge dir name (stored, child)).entries p → e ∈ md.entries p := by
    intro p e mem
    rw [gone.entries] at mem
    by_cases eq : p = dir
    · rw [if_pos eq] at mem
      rw [eq]
      exact mem_of_mem_erase mem
    · rwa [if_neg eq] at mem
  refine ⟨?_, ?_, ?_, ?_, ?_⟩
  · intro c p n
    rw [gone.parents, gone.entries]
    by_cases sameChild : c = child
    · by_cases sameDir : p = dir
      · rw [if_pos sameChild, if_pos sameDir, (h.parentsNodup child).mem_erase_iff,
          entriesNodup.mem_erase_iff, sameChild, sameDir, h.edges]
        simp
      · rw [if_pos sameChild, (h.parentsNodup child).mem_erase_iff, sameChild, h.edges]
        simp [sameDir]
    · by_cases sameDir : p = dir
      · rw [if_neg sameChild, sameDir, h.edges]
        simp [sameChild]
      · rw [if_neg sameChild, if_neg sameDir, h.edges]
  · intro p e mem
    rw [IsDirectory, gone.type]
    exact h.ofDirectory p e (fewer p e mem)
  · exact fun p e mem => h.named p e (fewer p e mem)
  · intro c
    rw [gone.parents]
    split
    · exact (h.parentsNodup child).erase _
    · exact h.parentsNodup c
  · intro p
    rw [gone.entries]
    split
    · exact nodup_map_erase (h.namesNodup dir)
    · exact h.namesNodup p

/-- Removing the edge that a name leads to. -/
theorem Coherent.removeEdge (h : Coherent md) (resolved : Resolved md dir name stored child) :
    ∃ md', md.removeEdge dir name child = some md' ∧ Coherent md' ∧
      Removed md md' dir stored child := by
  have dirThere := (h.ofDirectory dir _ resolved.entry).there
  obtain ⟨there, live, -⟩ := h.child_live resolved.entry
  have gone := removed_cutEdge resolved dirThere there
  have sides := h.twoSided.cutEdge resolved
  refine ⟨md.cutEdge dir name (stored, child), ?_, .of_twoSided sides ?_ ?_ ?_, gone⟩
  · rw [Metadata.removeEdge, h.find_eq resolved, Option.bind_some, if_neg (by simp [live])]
  · refine forall_edgeChange h.folded (fun d there => ?_) fun d folded =>
      ⟨folded.sensitive, folded.distinct, folded.lowered⟩
    have mem : (stored, child) ∈ d.entries := by
      have := resolved.entry
      rw [entries, there] at this
      exact this
    refine (h.folded dir d there).removeEntry mem fun folding => resolved.folded ?_
    rw [folds, there]
    exact folding
  · intro c kind
    rw [gone.type] at kind
    rw [gone.parents]
    by_cases eq : c = child
    · rw [if_pos eq, h.detached child (eq ▸ kind)]
      rfl
    · rw [if_neg eq]
      exact h.detached c kind
  · intro c kind
    rw [gone.type] at kind
    rw [gone.trash]
    exact h.trashed c kind

end Metadata

end LeilFS.Nodes
