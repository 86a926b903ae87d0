/-
Module: LeilFS.Nodes.CaseFold
Purpose: Directories whose names are compared without their case, through additions,
  removals, renames and switches between the two ways of comparing, also where several names
  differ by case only and where a node has several names.
Trusted boundary: none
-/
import LeilFS.Lib.StepSystem
import LeilFS.Nodes.Operations

namespace LeilFS.Nodes

open List Option

/-! ## Entries by name -/

namespace Metadata

/-- The stored name is meant by the name in the directory. -/
def Means (md : Metadata) (dir : InodeId) (stored name : Name) : Prop :=
  if md.folds dir = true then toLowerCase stored = toLowerCase name else stored = name

instance (md : Metadata) (dir : InodeId) (stored name : Name) :
    Decidable (md.Means dir stored name) := by
  unfold Means
  infer_instance

/-- What `mkdir`, `mknod`, `symlink` and `link` do to the entries of a directory. -/
def addName (place : Place) (dir child : InodeId) (name : Name) (md : Metadata) : Option Metadata :=
  if nameCheck name = true ∧ md.IsDirectory dir ∧ (md.node child).isSome = true ∧
      md.isNameUsed dir name = false then
    md.link place dir child name
  else none

/-- What `unlink` does to the entries of a directory
[SPEC filesystem_operations.cc:2106-2135]. -/
def unlinkName (dir : InodeId) (name : Name) (md : Metadata) : Option Metadata :=
  let baseName := md.baseName dir name
  if nameCheck baseName = true then
    (md.lookup dir baseName).bind fun child => md.removeEdge dir baseName child
  else none

/-- What `rename` does to the entries of two directories
[SPEC filesystem_operations.cc:2295-2390]. -/
def renameName (place : Place) (src : InodeId) (nameSrc : Name) (dst : InodeId) (nameDst : Name)
    (md : Metadata) : Option Metadata :=
  let baseSrc := md.baseName src nameSrc
  let baseDst := md.baseName dst nameDst
  if nameCheck baseSrc = true ∧ nameCheck baseDst = true ∧ md.IsDirectory dst then
    (md.lookup src baseSrc).bind fun source =>
      match md.lookup dst baseDst with
      | some replaced =>
          if replaced = source then some md
          else
            (md.removeEdge dst baseDst replaced).bind fun md =>
              (md.removeEdge src baseSrc source).bind fun md => md.link place dst source baseDst
      | none => (md.removeEdge src baseSrc source).bind fun md => md.link place dst source baseDst
  else none

end Metadata

/-- A change of the entries of directories, or a switch of the way names are compared. -/
inductive EntryStep where
  | add (place : Place) (dir child : InodeId) (name : Name)
  | unlink (dir : InodeId) (name : Name)
  | rename (place : Place) (src : InodeId) (nameSrc : Name) (dst : InodeId) (nameDst : Name)
  | useCase (dir : InodeId) (caseInsensitive : Bool)
deriving Repr, DecidableEq

namespace Metadata

/-- The state after a step; what is refused changes nothing. -/
def entryStep (md : Metadata) : EntryStep → Metadata
  | .add place dir child name => (md.addName place dir child name).getD md
  | .unlink dir name => (md.unlinkName dir name).getD md
  | .rename place src nameSrc dst nameDst => (md.renameName place src nameSrc dst nameDst).getD md
  | .useCase dir caseInsensitive => md.modify dir (FSNode.useCase caseInsensitive)

/-- The entry is the only one with its name up to case, and its name is the first one that its
node has in the directory. -/
structure Sole (md : Metadata) (dir : InodeId) (e : Name × InodeId) : Prop where
  only : ∀ other ∈ md.entries dir, toLowerCase other.1 = toLowerCase e.1 → other = e
  first : md.firstEntryIn dir e.2 = some (dir, e.1)

theorem sole_iff {md : Metadata} {dir : InodeId} {e : Name × InodeId} : md.Sole dir e ↔
      (∀ other ∈ md.entries dir, toLowerCase other.1 = toLowerCase e.1 → other = e) ∧
        md.firstEntryIn dir e.2 = some (dir, e.1) :=
  ⟨fun h => ⟨h.only, h.first⟩, fun h => ⟨h.1, h.2⟩⟩

instance (md : Metadata) (dir : InodeId) (e : Name × InodeId) : Decidable (md.Sole dir e) :=
  decidable_of_iff _ sole_iff.symm

/-- A name that means an entry means a sole one, where case does not count. -/
def Unambiguous (md : Metadata) (dir : InodeId) (name : Name) : Prop :=
  md.folds dir = true →
    ∀ e ∈ md.entries dir, toLowerCase e.1 = toLowerCase name → md.Sole dir e

instance (md : Metadata) (dir : InodeId) (name : Name) : Decidable (md.Unambiguous dir name) :=
  inferInstanceAs (Decidable (_ → _))

/-- Where case does not count, the nodes with an entry of that name have such a name first in the
directory, so that the name leads to one of these entries. -/
def Leads (md : Metadata) (dir : InodeId) (name : Name) : Prop :=
  md.folds dir = true → ∀ e ∈ md.entries dir, toLowerCase e.1 = toLowerCase name →
    toLowerCase (md.getChildName dir e.2) = toLowerCase name

instance (md : Metadata) (dir : InodeId) (name : Name) : Decidable (md.Leads dir name) :=
  inferInstanceAs (Decidable (_ → _))

theorem Unambiguous.leads {md : Metadata} {dir : InodeId} {name : Name}
    (clear : md.Unambiguous dir name) : md.Leads dir name := by
  intro folds e mem eq
  rw [getChildName, (clear folds e mem eq).first]
  exact eq

/-- Names that something is removed under are not ambiguous. -/
def Clear (md : Metadata) : EntryStep → Prop
  | .unlink dir name => md.Unambiguous dir name
  | .rename _ src nameSrc dst nameDst => md.Unambiguous src nameSrc ∧ md.Unambiguous dst nameDst
  | .add .. | .useCase .. => True

instance (md : Metadata) : ∀ step, Decidable (md.Clear step)
  | .unlink dir name => inferInstanceAs (Decidable (md.Unambiguous dir name))
  | .rename _ src nameSrc dst nameDst =>
      inferInstanceAs (Decidable (md.Unambiguous src nameSrc ∧ md.Unambiguous dst nameDst))
  | .add .. | .useCase .. => isTrue trivial

end Metadata

/-! ## Look-up -/

namespace Metadata

/-- An entry that goes is no longer there, and all others are. -/
theorem TwoSided.mem_entries_of_removed {md md' : Metadata} {dir child : InodeId} {name : Name}
    (h : TwoSided md) (gone : Removed md md' dir name child) (p : InodeId) (e : Name × InodeId) :
    e ∈ md'.entries p ↔ e ∈ md.entries p ∧ ¬ (p = dir ∧ e = (name, child)) := by
  have nodup : (md.entries dir).Nodup := (h.namesNodup dir).of_map _
  rw [gone.entries]
  by_cases eq : p = dir
  · rw [if_pos eq, nodup.mem_erase_iff, eq]
    simp [and_comm]
  · simp [eq]

theorem means_self (md : Metadata) (dir : InodeId) (name : Name) : md.Means dir name name := by
  unfold Means
  split <;> rfl

/-- Edges are known on both sides, the lower-case containers have all names, and every entry
can be removed. -/
structure Tracked (md : Metadata) : Prop where
  sides : TwoSided md
  listed : ∀ p dir, md.node p = some dir → dir.Listed
  legal : ∀ p, ∀ e ∈ md.entries p, nameCheck e.1 = true ∧ md.type? e.2 ≠ some .trash

namespace Tracked

variable {md : Metadata} {dir : InodeId} {name : Name} {e : Name × InodeId}

variable {child : InodeId}

/-- A node that the lower-case container finds leads to the first name that it has. -/
theorem find_of_low (h : Tracked md) {d : FSNode} (eq : md.node dir = some d)
    (folding : d.caseInsensitive = true) {key : Name}
    (low : d.findLowercaseContainer name = some (key, child)) :
    ∃ first, md.firstEntryIn dir child = some (dir, first) ∧
      md.find dir name = some (first, child) ∧ (first, child) ∈ md.entries dir ∧
      md.getBaseStoredChildName dir name = first := by
  have entries := (of_node eq).1
  obtain ⟨variant, mem, -⟩ := (h.listed dir d eq).exists_of_find low
  obtain ⟨first, is⟩ := exists_firstEntryIn ((h.sides.edges child dir variant).mpr (entries ▸ mem))
  have firstMem := h.sides.mem_of_firstEntryIn is
  have named : md.getChildName dir child = first := by rw [getChildName, is]; rfl
  refine ⟨first, is, ?_, firstMem, ?_⟩
  · rw [find, eq, bind_some, if_pos folding, low, bind_some, named]
    exact h.sides.findEntry_eq eq (entries ▸ firstMem)
  · rw [getBaseStoredChildName, eq]
    simp [low, is]

/-- A name is found exactly if it means an entry. -/
theorem lookup_isSome_iff (h : Tracked md) :
    (md.lookup dir name).isSome = true ↔ ∃ e ∈ md.entries dir, md.Means dir e.1 name := by
  cases there : md.node dir with
  | none => simp [lookup, find, entries, there]
  | some d =>
    obtain ⟨entries, folds⟩ := of_node there
    unfold lookup Means
    rw [isSome_map, folds]
    cases folding : d.caseInsensitive with
    | false =>
      rw [find, there, bind_some, if_neg (by simp [folding]), entries]
      simp only [Bool.false_eq_true]
      constructor
      · intro found
        obtain ⟨e, is⟩ := isSome_iff_exists.mp found
        exact ⟨e, mem_of_find?_eq_some is, by simpa using find?_some is⟩
      · rintro ⟨⟨stored, child⟩, mem, rfl⟩
        rw [h.sides.findEntry_eq there mem]
        rfl
    | true =>
      constructor
      · intro found
        obtain ⟨e, is⟩ := isSome_iff_exists.mp found
        rw [find, there, bind_some, if_pos folding] at is
        obtain ⟨⟨key, child⟩, low, -⟩ := bind_eq_some_iff.mp is
        obtain ⟨variant, mem, eq⟩ := (h.listed dir d there).exists_of_find low
        exact ⟨(variant, child), entries ▸ mem, eq⟩
      · rintro ⟨e, mem, eq⟩
        obtain ⟨low, is⟩ := (h.listed dir d there).exists_find folding (entries ▸ mem) eq
        obtain ⟨first, -, found, -⟩ := h.find_of_low there folding is
        rw [found]
        rfl

/-- A name without an entry is taken as it is. -/
theorem baseName_of_none (h : Tracked md) (none : ∀ e ∈ md.entries dir, ¬ md.Means dir e.1 name) :
    md.baseName dir name = name ∧ md.lookup dir name = Option.none := by
  have absent : md.lookup dir name = Option.none := by
    rw [← Option.not_isSome_iff_eq_none, h.lookup_isSome_iff]
    rintro ⟨e, mem, means⟩
    exact none e mem means
  refine ⟨?_, absent⟩
  unfold baseName
  rw [if_neg]
  rintro ⟨folds, ne⟩
  apply ne
  unfold getBaseStoredChildName
  cases there : md.node dir with
  | none => rfl
  | some d =>
    dsimp only
    cases low : d.findLowercaseContainer name with
    | none => rfl
    | some found =>
      obtain ⟨first, -, is, -⟩ := h.find_of_low there ((of_node there).2.symm.trans folds) low
      rw [lookup, is] at absent
      cases absent

/-- A name that means an entry is resolved to an entry that it means. -/
theorem exists_resolved (h : Tracked md) (leads : md.Leads dir name) (mem : e ∈ md.entries dir)
    (means : md.Means dir e.1 name) :
    ∃ found ∈ md.entries dir, md.Means dir found.1 name ∧ md.baseName dir name = found.1 ∧
      Resolved md dir found.1 found.1 found.2 ∧ md.find dir found.1 = some found := by
  obtain ⟨d, there, entries, folds⟩ := node_of_mem_entries mem
  cases folding : d.caseInsensitive with
  | false =>
    have plain : md.folds dir = false := folds.trans folding
    refine ⟨e, mem, means, ?_, ⟨mem, fun _ => rfl, fun _ => rfl, fun yes => ?_⟩, ?_⟩
    · rw [Means, plain] at means
      rw [baseName, if_neg (by simp [plain])]
      exact means.symm
    · rw [plain] at yes
      cases yes
    · rw [find, there, bind_some, if_neg (by simp [folding])]
      exact h.sides.findEntry_eq there (entries ▸ mem)
  | true =>
    have folded : md.folds dir = true := folds.trans folding
    have eq : toLowerCase e.1 = toLowerCase name := by rwa [Means, if_pos folded] at means
    obtain ⟨⟨key, child⟩, low⟩ := (h.listed dir d there).exists_find folding (entries ▸ mem) eq
    obtain ⟨variant, inside, sameVariant⟩ := (h.listed dir d there).exists_of_find low
    obtain ⟨first, is, -, firstMem, base⟩ := h.find_of_low there folding low
    -- the node that is found has its first name here, which the name means as well
    have named : md.getChildName dir child = first := by rw [getChildName, is]; rfl
    have same : toLowerCase first = toLowerCase name :=
      named ▸ leads folded (variant, child) (entries ▸ inside) sameVariant
    have lowFirst : d.findLowercaseContainer first = some (key, child) := by
      rw [← low, FSNode.findLowercaseContainer, FSNode.findLowercaseContainer, same]
    obtain ⟨again, isAgain, found, -⟩ := h.find_of_low there folding lowFirst
    obtain rfl : again = first := by
      rw [is] at isAgain
      cases isAgain
      rfl
    refine ⟨(again, child), firstMem, by rwa [Means, if_pos folded], ?_,
      ⟨firstMem, fun _ => rfl, fun _ => rfl, fun _ => is⟩, found⟩
    rw [baseName, base, if_pos ⟨folded, h.sides.named dir _ firstMem⟩]

/-- A name that means a sole entry is resolved to it. -/
theorem resolve (h : Tracked md) (clear : md.Unambiguous dir name) (mem : e ∈ md.entries dir)
    (means : md.Means dir e.1 name) :
    md.baseName dir name = e.1 ∧ Resolved md dir e.1 e.1 e.2 ∧ md.find dir e.1 = some e := by
  obtain ⟨found, inside, meansFound, resolved⟩ := h.exists_resolved clear.leads mem means
  suffices same : found = e from same ▸ resolved
  unfold Means at means meansFound
  cases folds : md.folds dir with
  | true =>
    rw [if_pos folds] at means meansFound
    exact (clear folds e mem means).only found inside (meansFound.trans means.symm)
  | false =>
    rw [if_neg (by simp [folds])] at means meansFound
    exact inj_on_of_nodup_map (h.sides.namesNodup dir) inside mem (meansFound.trans means.symm)

/-- A fit name is taken for a fit one. -/
theorem nameCheck_baseName (h : Tracked md) (fine : nameCheck name = true) :
    nameCheck (md.baseName dir name) = true := by
  unfold baseName
  split
  next base =>
    obtain ⟨folds, ne⟩ := base
    cases there : md.node dir with
    | none =>
      rw [Metadata.folds, there] at folds
      cases folds
    | some d =>
      cases low : d.findLowercaseContainer name with
      | none =>
        rw [getBaseStoredChildName, there] at ne
        simp [low] at ne
      | some found =>
        obtain ⟨first, -, -, mem, is⟩ :=
          h.find_of_low there ((of_node there).2.symm.trans folds) low
        rw [is]
        exact (h.legal dir _ mem).1
  · exact fine

/-! ## Steps -/

theorem useCase (h : Tracked md) (dir : InodeId) (caseInsensitive : Bool) :
    Tracked (md.modify dir (FSNode.useCase caseInsensitive)) := by
  have eq := sameEdges_useCase md dir caseInsensitive
  refine ⟨h.sides.of_sameEdges eq,
    forall_modify h.listed fun d there => (h.listed dir d there).useCase caseInsensitive, ?_⟩
  intro p e mem
  rw [eq.entries] at mem
  rw [eq.type]
  exact h.legal p e mem

/-- A name that means no entry is new. -/
theorem fresh_of_none (none : ∀ e ∈ md.entries dir, ¬ md.Means dir e.1 name) :
    Fresh md dir name := by
  have folded : md.folds dir = true →
      toLowerCase name ∉ (md.entries dir).map fun e => toLowerCase e.1 := by
    intro folds used
    obtain ⟨e, mem, eq⟩ := mem_map.mp used
    refine none e mem ?_
    rw [Means, if_pos folds]
    exact eq
  refine ⟨fun used => ?_, folded⟩
  obtain ⟨e, mem, eq⟩ := mem_map.mp used
  refine none e mem ?_
  rw [Means, eq]
  split <;> rfl

/-- A new edge. -/
theorem addEdge (h : Tracked md) (place : Place) (directory : md.IsDirectory dir)
    (ne : md.type? child ≠ none) (live : md.type? child ≠ some .trash)
    (fine : nameCheck name = true) (fresh : Fresh md dir name) :
    Tracked (md.addEdge place dir child name) ∧
      Linked md (md.addEdge place dir child name) dir name child := by
  have linked : Linked md (md.addEdge place dir child name) dir name child :=
    linked_addEdge place directory.there ne
  refine ⟨⟨h.sides.addEdge place directory ne (ne_nil_of_nameCheck fine) fresh.plain, ?_, ?_⟩,
    linked⟩
  · refine forall_edgeChange h.listed (fun d isDir => ?_) fun d listed =>
      ⟨listed.sensitive, listed.keys, listed.sound, listed.complete⟩
    refine (h.listed dir d isDir).addEntry place fun folding => ?_
    have new := fresh.folded (by rw [folds, isDir]; exact folding)
    rw [entries, isDir] at new
    exact new
  · intro p e mem
    rw [linked.type]
    rcases (linked.entries p e).mp mem with old | ⟨-, rfl⟩
    · exact h.legal p e old
    · exact ⟨fine, live⟩

/-- A sole entry goes. -/
theorem cutEdge (h : Tracked md) (mem : e ∈ md.entries dir)
    (sole : md.folds dir = true → md.Sole dir e) :
    Tracked (md.cutEdge dir e.1 e) ∧ Removed md (md.cutEdge dir e.1 e) dir e.1 e.2 := by
  have resolved : Resolved md dir e.1 e.1 e.2 :=
    ⟨mem, fun _ => rfl, fun _ => rfl, fun folds => (sole folds).first⟩
  have gone := removed_cutEdge resolved (h.sides.ofDirectory dir e mem).there
    (h.sides.child_there mem)
  refine ⟨⟨h.sides.cutEdge resolved, ?_, ?_⟩, gone⟩
  · refine forall_edgeChange h.listed (fun d isDir => ?_) fun d listed =>
      ⟨listed.sensitive, listed.keys, listed.sound, listed.complete⟩
    obtain ⟨sameEntries, sameFolds⟩ := of_node isDir
    have nodup : (md.entries dir).Nodup := (h.sides.namesNodup dir).of_map _
    refine (h.listed dir d isDir).removeEntry (fun _ => sameEntries ▸ nodup) (sameEntries ▸ mem) ?_
    intro folding
    rw [← sameEntries]
    exact (sole (sameFolds.trans folding)).only
  · intro p other inside
    rw [gone.type]
    exact h.legal p other ((h.sides.mem_entries_of_removed gone p other).mp inside).1

/-- Removing a sole entry by its name. -/
theorem removeEdge (h : Tracked md) (mem : e ∈ md.entries dir)
    (sole : md.folds dir = true → md.Sole dir e) :
    ∃ md', md.removeEdge dir e.1 e.2 = some md' ∧ Tracked md' ∧ Removed md md' dir e.1 e.2 := by
  have clear : md.Unambiguous dir e.1 := by
    intro folds other inside eq
    rw [(sole folds).only other inside eq]
    exact sole folds
  obtain ⟨-, -, found⟩ := h.resolve clear mem (means_self md dir e.1)
  obtain ⟨tracked, gone⟩ := h.cutEdge mem sole
  refine ⟨md.cutEdge dir e.1 e, ?_, tracked, gone⟩
  rw [Metadata.removeEdge, found, bind_some, if_neg]
  rintro (no | trash)
  · exact no rfl
  · exact (h.legal dir e mem).2 trash

/-- No other entry is meant by the name of a sole one. -/
theorem means_iff_eq (h : Tracked md) (sole : md.folds dir = true → md.Sole dir e)
    (mem : e ∈ md.entries dir) (means : md.Means dir e.1 name) {other : Name × InodeId}
    (inside : other ∈ md.entries dir) : md.Means dir other.1 name ↔ other = e := by
  constructor
  · intro meansOther
    unfold Means at means meansOther
    cases folds : md.folds dir with
    | true =>
      rw [if_pos folds] at means meansOther
      exact (sole folds).only other inside (meansOther.trans means.symm)
    | false =>
      rw [if_neg (by simp [folds])] at means meansOther
      exact inj_on_of_nodup_map (h.sides.namesNodup dir) inside mem (meansOther.trans means.symm)
  · rintro rfl
    exact means

end Tracked

section Removal

variable {md md' : Metadata} {dir src : InodeId} {name : Name} {e : Name × InodeId}

/-- Removing an entry that its name leads to. -/
theorem TwoSided.removeEdge (h : TwoSided md) (resolved : Resolved md dir e.1 e.1 e.2)
    (found : md.find dir e.1 = some e) (live : md.type? e.2 ≠ some .trash) :
    md.removeEdge dir e.1 e.2 = some (md.cutEdge dir e.1 e) ∧
      Removed md (md.cutEdge dir e.1 e) dir e.1 e.2 := by
  refine ⟨?_, removed_cutEdge resolved (h.ofDirectory dir e resolved.entry).there
    (h.child_there resolved.entry)⟩
  rw [Metadata.removeEdge, found, bind_some, if_neg]
  simpa using live

theorem node_modify_eq {id : InodeId} {f : FSNode → FSNode} {d : FSNode}
    (there : md.node src = some d) :
    (md.modify id f).node src = some (if src = id then f d else d) := by
  rw [node_modify]
  split
  next eq => rw [← eq, there, map_some]
  · exact there

/-- What the lower-case container of a directory finds is not touched by the removal of an entry
with another name. -/
theorem findLowercaseContainer_cutEdge {r : Name × InodeId} {d : FSNode}
    (there : md.node src = some d)
    (apart : src = dir → toLowerCase r.1 ≠ toLowerCase name) :
    ∃ d', (md.cutEdge dir r.1 r).node src = some d' ∧
      d'.caseInsensitive = d.caseInsensitive ∧
      d'.findLowercaseContainer name = d.findLowercaseContainer name := by
  have other : src = dir → (d.lowerCaseEntries.eraseP (·.1 = toLowerCase r.1)).find?
      (·.1 = toLowerCase name) = d.lowerCaseEntries.find? (·.1 = toLowerCase name) := by
    intro same
    have ne := apart same
    induction d.lowerCaseEntries with
    | nil => rfl
    | cons low lows ih => grind
  refine ⟨_, node_modify_eq (node_modify_eq there), ?_, ?_⟩
  · split_ifs <;> rfl
  · unfold FSNode.findLowercaseContainer FSNode.removeParent FSNode.removeEntry
    split_ifs <;> grind

/-- A name still leads to its entry when an entry with another name, of another node, is gone. -/
theorem Tracked.find_cutEdge (h : Tracked md) {r : Name × InodeId}
    (resolved : Resolved md src e.1 e.1 e.2) (found : md.find src e.1 = some e)
    (gone : Resolved md dir r.1 r.1 r.2) (ne : e.2 ≠ r.2)
    (apart : src = dir → md.folds dir = true → toLowerCase r.1 ≠ toLowerCase e.1) :
    Resolved (md.cutEdge dir r.1 r) src e.1 e.1 e.2 ∧
      (md.cutEdge dir r.1 r).find src e.1 = some e := by
  have sides := h.sides.cutEdge gone
  have removed := removed_cutEdge gone (h.sides.ofDirectory dir r gone.entry).there
    (h.sides.child_there gone.entry)
  have mem : e ∈ (md.cutEdge dir r.1 r).entries src :=
    (h.sides.mem_entries_of_removed removed src e).mpr
      ⟨resolved.entry, fun both => ne (congrArg Prod.snd both.2)⟩
  have first : md.folds src = true →
      (md.cutEdge dir r.1 r).firstEntryIn src e.2 = some (src, e.1) := by
    intro folds
    rw [firstEntryIn, removed.parents, if_neg ne]
    exact resolved.first folds
  refine ⟨⟨mem, fun _ => rfl, fun _ => rfl, fun folds => first (removed.folds src ▸ folds)⟩, ?_⟩
  obtain ⟨d', there', entries', folds'⟩ := node_of_mem_entries mem
  rw [find, there', bind_some]
  cases folding : d'.caseInsensitive with
  | false => exact sides.findEntry_eq there' (entries' ▸ mem)
  | true =>
    have folds : md.folds src = true := by rw [← removed.folds, folds', folding]
    obtain ⟨d, there, entries, same⟩ := node_of_mem_entries resolved.entry
    have low : d.findLowercaseContainer e.1 ≠ none := by
      intro none
      rw [find, there, bind_some, if_pos (same.symm.trans folds), none] at found
      cases found
    obtain ⟨⟨key, child⟩, low⟩ := Option.ne_none_iff_exists'.mp low
    obtain ⟨again, -, is, -⟩ := h.find_of_low there (same.symm.trans folds) low
    obtain rfl : e = (again, child) := some.inj (found.symm.trans is)
    obtain ⟨d'', there'', -, low'⟩ := findLowercaseContainer_cutEdge (r := r) there fun here =>
      apart here (here ▸ folds)
    cases there'.symm.trans there''
    rw [if_pos rfl, low', low, bind_some, getChildName, first folds]
    exact sides.findEntry_eq there' (entries' ▸ mem)

/-- An entry stays sole when another node loses a name. -/
theorem Sole.of_removed {child : InodeId} (h : md.Sole src e)
    (gone : Removed md md' dir name child) (ne : child ≠ e.2) : md'.Sole src e := by
  refine ⟨fun entry inside eq => h.only entry ?_ eq, ?_⟩
  · rw [gone.entries] at inside
    split at inside
    next here => exact here ▸ mem_of_mem_erase inside
    · exact inside
  · unfold firstEntryIn
    rw [gone.parents, if_neg ne.symm]
    exact h.first

/-- A name means the same entries where names are compared in the same way. -/
theorem means_congr (folds : md'.folds dir = md.folds dir) (stored : Name) :
    md'.Means dir stored name ↔ md.Means dir stored name := by
  unfold Means
  rw [folds]

/-- What a name that is not ambiguous means is sole. -/
theorem Unambiguous.sole (clear : md.Unambiguous dir name) (mem : e ∈ md.entries dir)
    (h : md.Means dir e.1 name) : md.folds dir = true → md.Sole dir e := by
  intro folds
  rw [Means, if_pos folds] at h
  exact clear folds e mem h

end Removal

/-! ## What steps do -/

section Steps

variable {md md' : Metadata} {dir src dst : InodeId} {name nameSrc nameDst : Name}
  {e : Name × InodeId}

/-- One entry goes, that the name means. -/
def RemovesOne (md md' : Metadata) (dir : InodeId) (name : Name) : Prop :=
  ∃ e ∈ md.entries dir, md.Means dir e.1 name ∧
    ∀ p, md'.entries p = if p = dir then (md.entries dir).erase e else md.entries p

/-- One entry goes that the old name means, and its node gets an entry that the new name means.
Where the new name meant entries, one of them is replaced. -/
def MovesOne (md md' : Metadata) (src : InodeId) (nameSrc : Name) (dst : InodeId)
    (nameDst : Name) : Prop :=
  ∃ e ∈ md.entries src, md.Means src e.1 nameSrc ∧ ∃ new, md.Means dst new nameDst ∧
    ∃ replaced : Option (Name × InodeId),
      (∀ r, replaced = some r → r ∈ md.entries dst ∧ md.Means dst r.1 nameDst) ∧
      (replaced = none → ∀ r ∈ md.entries dst, ¬ md.Means dst r.1 nameDst) ∧
      ∀ p other, other ∈ md'.entries p ↔ (p = dst ∧ other = (new, e.2)) ∨
        (other ∈ md.entries p ∧ ¬ (p = src ∧ other = e) ∧ ¬ (p = dst ∧ replaced = some other))

/-- Both names lead to one node, and nothing is done. -/
def MovesNothing (md md' : Metadata) (src : InodeId) (nameSrc : Name) (dst : InodeId)
    (nameDst : Name) : Prop :=
  md' = md ∧ ∃ e ∈ md.entries src, md.Means src e.1 nameSrc ∧
    ∃ other ∈ md.entries dst, md.Means dst other.1 nameDst ∧ other.2 = e.2

theorem movesOne_of_replaced {cut cut' : Metadata} {old : Name × InodeId} (h : TwoSided md)
    (sides : TwoSided cut) (gone : Removed md cut dst old.1 old.2)
    (goneSrc : Removed cut cut' src e.1 e.2) (linked : Linked cut' md' dst old.1 e.2)
    (mem : e ∈ md.entries src) (means : md.Means src e.1 nameSrc) (inDst : old ∈ md.entries dst)
    (meansOld : md.Means dst old.1 nameDst) : MovesOne md md' src nameSrc dst nameDst := by
  refine ⟨e, mem, means, old.1, meansOld, some old,
    fun r is => some.inj is ▸ ⟨inDst, meansOld⟩, fun no => absurd no (some_ne_none old),
    fun p other => ?_⟩
  rw [linked.entries, sides.mem_entries_of_removed goneSrc, h.mem_entries_of_removed gone,
    some.injEq]
  constructor
  · rintro (⟨⟨inside, other⟩, stays⟩ | new)
    · exact .inr ⟨inside, stays, fun both => other ⟨both.1, both.2.symm⟩⟩
    · exact .inl new
  · rintro (new | ⟨inside, stays, other⟩)
    · exact .inr new
    · exact .inl ⟨⟨inside, fun both => other ⟨both.1, both.2.symm⟩⟩, stays⟩

theorem movesOne_of_free {cut : Metadata} (h : TwoSided md) (gone : Removed md cut src e.1 e.2)
    (linked : Linked cut md' dst nameDst e.2) (mem : e ∈ md.entries src)
    (means : md.Means src e.1 nameSrc)
    (free : ∀ other ∈ md.entries dst, ¬ md.Means dst other.1 nameDst) :
    MovesOne md md' src nameSrc dst nameDst := by
  refine ⟨e, mem, means, nameDst, means_self md dst nameDst, none,
    fun r no => absurd no.symm (some_ne_none r), fun _ => free, fun p other => ?_⟩
  rw [linked.entries, h.mem_entries_of_removed gone]
  tauto

/-- Where names are folded, equal names lead to one entry. -/
theorem find_eq_of_toLowerCase {one two : Name} (mem : e ∈ md.entries dir)
    (folds : md.folds dir = true) (same : toLowerCase one = toLowerCase two) :
    md.find dir one = md.find dir two := by
  obtain ⟨d, there, -, sameFolds⟩ := node_of_mem_entries mem
  have low : d.findLowercaseContainer one = d.findLowercaseContainer two := by
    rw [FSNode.findLowercaseContainer, FSNode.findLowercaseContainer, same]
  have folding : d.caseInsensitive = true := sameFolds.symm.trans folds
  rw [find, find, there, bind_some, bind_some, if_pos folding, if_pos folding, low]

namespace Tracked

section

variable (h : Tracked md)
include h

theorem addName {place : Place} {child : InodeId}
    (result : md.addName place dir child name = some md') : Tracked md' := by
  unfold Metadata.addName at result
  split at result
  next checks =>
    obtain ⟨fine, isDir, there, unused⟩ := checks
    have none : ∀ e ∈ md.entries dir, ¬ md.Means dir e.1 name := by
      intro e mem means
      rw [isNameUsed, h.lookup_isSome_iff.mpr ⟨e, mem, means⟩] at unused
      cases unused
    have childThere : md.type? child ≠ Option.none := by
      rw [type?, ne_eq, Option.map_eq_none_iff]
      exact Option.isSome_iff_ne_none.mp there
    unfold link at result
    split at result
    · cases result
    next live =>
      obtain rfl := Option.some.inj result
      exact (h.addEdge place isDir childThere live fine (fresh_of_none none)).1
  · cases result

/-- A name that leads somewhere means an entry. -/
theorem exists_means {child : InodeId} (found : md.lookup dir (md.baseName dir name) = some child) :
    ∃ e ∈ md.entries dir, md.Means dir e.1 name := by
  by_contra none
  obtain ⟨base, absent⟩ := h.baseName_of_none fun e mem means => none ⟨e, mem, means⟩
  rw [base, absent] at found
  cases found

/-- A name that means an entry is removed with one. -/
theorem unlinks (leads : md.Leads dir name) (mem : e ∈ md.entries dir)
    (means : md.Means dir e.1 name) :
    ∃ md', md.unlinkName dir name = some md' ∧ RemovesOne md md' dir name := by
  obtain ⟨found, inside, meansFound, base, resolved, is⟩ := h.exists_resolved leads mem means
  obtain ⟨removed, gone⟩ := h.sides.removeEdge resolved is (h.legal dir found inside).2
  refine ⟨_, ?_, found, inside, meansFound, gone.entries⟩
  unfold Metadata.unlinkName
  rw [base, if_pos (h.legal dir found inside).1, lookup, is, map_some, bind_some, removed]

/-- A name that means an entry is renamed with one. -/
theorem renames (place : Place) (leadsSrc : md.Leads src nameSrc) (leadsDst : md.Leads dst nameDst)
    (mem : e ∈ md.entries src) (means : md.Means src e.1 nameSrc) (isDir : md.IsDirectory dst)
    (fine : nameCheck (md.baseName dst nameDst) = true) :
    ∃ md', md.renameName place src nameSrc dst nameDst = some md' ∧
      (MovesNothing md md' src nameSrc dst nameDst ∨ MovesOne md md' src nameSrc dst nameDst) := by
  obtain ⟨moved, inSrc, meansSrc, baseSrc, resolved, found⟩ := h.exists_resolved leadsSrc mem means
  have live := (h.legal src moved inSrc).2
  have source : md.lookup src (md.baseName src nameSrc) = some moved.2 := by
    rw [baseSrc, lookup, found, map_some]
  unfold Metadata.renameName
  rw [if_pos ⟨baseSrc ▸ (h.legal src moved inSrc).1, fine, isDir⟩, source, bind_some, baseSrc]
  by_cases some : ∃ r ∈ md.entries dst, md.Means dst r.1 nameDst
  · obtain ⟨r, memDst, meansDst⟩ := some
    obtain ⟨old, inDst, meansOld, baseDst, resolvedDst, foundDst⟩ :=
      h.exists_resolved leadsDst memDst meansDst
    have target : md.lookup dst old.1 = Option.some old.2 := by rw [lookup, foundDst, map_some]
    rw [baseDst, target]
    dsimp only
    by_cases eq : old.2 = moved.2
    · rw [if_pos eq]
      exact ⟨md, rfl, .inl ⟨rfl, moved, inSrc, meansSrc, old, inDst, meansOld, eq⟩⟩
    rw [if_neg eq]
    -- equal names in one directory would lead to one node
    have apart : src = dst → md.folds dst = true → toLowerCase old.1 ≠ toLowerCase moved.1 := by
      rintro rfl folds same
      have both := find_eq_of_toLowerCase inSrc folds same
      rw [foundDst, found] at both
      exact eq (congrArg Prod.snd (Option.some.inj both))
    obtain ⟨removed, gone⟩ := h.sides.removeEdge resolvedDst foundDst (h.legal dst old inDst).2
    obtain ⟨stillResolved, stillFound⟩ := h.find_cutEdge resolved found resolvedDst (Ne.symm eq)
      apart
    have sides := h.sides.cutEdge resolvedDst
    have liveCut : (md.cutEdge dst old.1 old).type? moved.2 ≠ Option.some .trash := by
      rwa [gone.type]
    obtain ⟨removedSrc, goneSrc⟩ := sides.removeEdge stillResolved stillFound liveCut
    rw [removed, bind_some, removedSrc, bind_some, link, if_neg (by rwa [goneSrc.type])]
    have linked :
        Linked ((md.cutEdge dst old.1 old).cutEdge src moved.1 moved) _ dst old.1 moved.2 :=
      linked_addEdge place (by rw [goneSrc.type, gone.type]; exact isDir.there)
        (by rw [goneSrc.type, gone.type]; exact h.sides.child_there inSrc)
    exact ⟨_, rfl, .inr (movesOne_of_replaced h.sides sides gone goneSrc linked inSrc meansSrc inDst
      meansOld)⟩
  · have free : ∀ other ∈ md.entries dst, ¬ md.Means dst other.1 nameDst :=
      fun other inside meansOther => some ⟨other, inside, meansOther⟩
    obtain ⟨baseDst, absent⟩ := h.baseName_of_none free
    rw [baseDst, absent]
    obtain ⟨removed, gone⟩ := h.sides.removeEdge resolved found live
    dsimp only
    rw [removed, bind_some, link, if_neg (by rwa [gone.type])]
    have linked : Linked (md.cutEdge src moved.1 moved) _ dst nameDst moved.2 :=
      linked_addEdge place (by rw [gone.type]; exact isDir.there)
        (by rw [gone.type]; exact h.sides.child_there inSrc)
    exact ⟨_, rfl, .inr (movesOne_of_free h.sides gone linked inSrc meansSrc free)⟩

/-- What is left by a removal under a name that is not ambiguous. -/
theorem unlinkName (clear : md.Unambiguous dir name) (mem : e ∈ md.entries dir)
    (means : md.Means dir e.1 name) : ∃ md', md.unlinkName dir name = some md' ∧ Tracked md' := by
  obtain ⟨base, -, found⟩ := h.resolve clear mem means
  obtain ⟨md', removed, tracked, -⟩ := h.removeEdge mem (clear.sole mem means)
  refine ⟨md', ?_, tracked⟩
  unfold Metadata.unlinkName
  rw [base, if_pos (h.legal dir e mem).1, lookup, found, map_some, bind_some, removed]

/-- An entry moves to a name that means nothing else. -/
theorem moveEdge (place : Place) (name : Name) (mem : e ∈ md.entries src)
    (sole : md.folds src = true → md.Sole src e) (isDir : md.IsDirectory dst)
    (fine : nameCheck name = true)
    (free : ∀ other ∈ md.entries dst, ¬ (dst = src ∧ other = e) → ¬ md.Means dst other.1 name) :
    ∃ md', ((md.removeEdge src e.1 e.2).bind fun md => md.link place dst e.2 name) = some md' ∧
      Tracked md' := by
  obtain ⟨cut, removed, tracked, gone⟩ := h.removeEdge mem sole
  have live : cut.type? e.2 ≠ some .trash := by
    rw [gone.type]
    exact (h.legal src e mem).2
  have ne : cut.type? e.2 ≠ none := by
    rw [gone.type]
    exact h.sides.child_there mem
  have fresh : Fresh cut dst name := by
    refine fresh_of_none fun other inside means => ?_
    obtain ⟨old, differs⟩ := (h.sides.mem_entries_of_removed gone dst other).mp inside
    exact free other old differs ((means_congr (gone.folds dst) _).mp means)
  obtain ⟨moved, -⟩ := tracked.addEdge place ((gone.type dst).trans isDir) ne live fine fresh
  refine ⟨cut.addEdge place dst e.2 name, ?_, moved⟩
  rw [removed, bind_some, link, if_neg live]

/-- What is left by a rename with names that are not ambiguous. -/
theorem renameName (place : Place) (clearSrc : md.Unambiguous src nameSrc)
    (clearDst : md.Unambiguous dst nameDst) (mem : e ∈ md.entries src)
    (means : md.Means src e.1 nameSrc) (isDir : md.IsDirectory dst)
    (fine : nameCheck (md.baseName dst nameDst) = true) :
    ∃ md', md.renameName place src nameSrc dst nameDst = some md' ∧ Tracked md' := by
  obtain ⟨base, -, found⟩ := h.resolve clearSrc mem means
  have sole := clearSrc.sole mem means
  have source : md.lookup src (md.baseName src nameSrc) = some e.2 := by
    rw [base, lookup, found, map_some]
  unfold Metadata.renameName
  rw [if_pos ⟨base ▸ (h.legal src e mem).1, fine, isDir⟩, source, bind_some, base]
  by_cases some : ∃ r ∈ md.entries dst, md.Means dst r.1 nameDst
  · obtain ⟨r, memDst, meansDst⟩ := some
    obtain ⟨baseDst, -, foundDst⟩ := h.resolve clearDst memDst meansDst
    have soleDst := clearDst.sole memDst meansDst
    have target : md.lookup dst r.1 = some r.2 := by rw [lookup, foundDst, map_some]
    rw [baseDst, target]
    dsimp only
    by_cases eq : r.2 = e.2
    · rw [if_pos eq]
      exact ⟨md, rfl, h⟩
    -- the entry that is replaced goes first, and the other one is still sole
    rw [if_neg eq]
    have differ : e ≠ r := fun equal => eq (equal ▸ rfl)
    obtain ⟨cut, removed, tracked, gone⟩ := h.removeEdge memDst soleDst
    have memCut : ∀ p other, other ∈ cut.entries p ↔
        other ∈ md.entries p ∧ ¬ (p = dst ∧ other = r) := h.sides.mem_entries_of_removed gone
    have soleCut : cut.folds src = true → cut.Sole src e := by
      intro folds
      rw [gone.folds] at folds
      exact (sole folds).of_removed gone eq
    rw [removed]
    obtain ⟨md', moved, trackedMoved⟩ := tracked.moveEdge place r.1
      ((memCut src e).mpr ⟨mem, fun both => differ both.2⟩) soleCut
      ((gone.type dst).trans isDir) (h.legal dst r memDst).1
      (by
        intro other inside _ meansOther
        obtain ⟨old, no⟩ := (memCut dst other).mp inside
        rw [means_congr (gone.folds dst)] at meansOther
        exact no ⟨rfl, (h.means_iff_eq soleDst memDst (means_self md dst r.1) old).mp meansOther⟩)
    exact ⟨md', moved, trackedMoved⟩
  · have free : ∀ other ∈ md.entries dst, ¬ md.Means dst other.1 nameDst :=
      fun other inside meansOther => some ⟨other, inside, meansOther⟩
    obtain ⟨baseDst, absent⟩ := h.baseName_of_none free
    rw [baseDst] at fine
    rw [baseDst, absent]
    obtain ⟨md', moved, trackedMoved⟩ := h.moveEdge place nameDst mem sole isDir fine
      fun other inside _ => free other inside
    exact ⟨md', moved, trackedMoved⟩

/-- An answer that was given keeps the containers together. -/
theorem of_unlinkName (clear : md.Unambiguous dir name)
    (result : md.unlinkName dir name = some md') : Tracked md' := by
  have unlinked := result
  unfold Metadata.unlinkName at unlinked
  dsimp only at unlinked
  split at unlinked
  · obtain ⟨child, found, -⟩ := bind_eq_some_iff.mp unlinked
    obtain ⟨e, mem, means⟩ := h.exists_means found
    obtain ⟨after, eq, tracked⟩ := h.unlinkName clear mem means
    rw [result] at eq
    exact some.inj eq ▸ tracked
  · cases unlinked

theorem of_renameName {place : Place} (clearSrc : md.Unambiguous src nameSrc)
    (clearDst : md.Unambiguous dst nameDst)
    (result : md.renameName place src nameSrc dst nameDst = some md') : Tracked md' := by
  have renamed := result
  unfold Metadata.renameName at renamed
  dsimp only at renamed
  split at renamed
  next checks =>
    obtain ⟨source, found, -⟩ := bind_eq_some_iff.mp renamed
    obtain ⟨e, mem, means⟩ := h.exists_means found
    obtain ⟨after, eq, tracked⟩ := h.renameName place clearSrc clearDst mem means
      checks.2.2 checks.2.1
    rw [result] at eq
    exact some.inj eq ▸ tracked
  · cases renamed

theorem getD {result : Option Metadata}
    (answered : ∀ md', result = some md' → Tracked md') : Tracked (result.getD md) := by
  cases result with
  | none => exact h
  | some md' => exact answered md' rfl

/-- A step whose names are not ambiguous keeps the containers together. -/
theorem entryStep (step : EntryStep) (clear : md.Clear step) : Tracked (md.entryStep step) := by
  cases step with
  | add place dir child name => exact h.getD fun _ => h.addName
  | unlink dir name => exact h.getD fun _ => h.of_unlinkName clear
  | rename place src nameSrc dst nameDst => exact h.getD fun _ => h.of_renameName clear.1 clear.2
  | useCase dir caseInsensitive => exact h.useCase dir caseInsensitive

end

end Tracked

end Steps

/-- No node has a name yet. -/
def Nameless (md : Metadata) : Prop :=
  ∀ id n, md.node id = some n → n.parents = [] ∧ n.entries = [] ∧ n.lowerCaseEntries = []

theorem Nameless.tracked {md : Metadata} (h : md.Nameless) : Tracked md := by
  have entries : ∀ p, md.entries p = [] := by
    intro p
    unfold Metadata.entries
    cases there : md.node p with
    | none => rfl
    | some n => exact (h p n there).2.1
  have parents : ∀ c, md.parents c = [] := by
    intro c
    unfold Metadata.parents
    cases there : md.node c with
    | none => rfl
    | some n => exact (h c n there).1
  refine ⟨⟨?_, ?_, ?_, ?_, ?_⟩, fun p dir there => ?_, ?_⟩
  · simp [entries, parents]
  · simp [entries]
  · simp [entries]
  · simp [parents]
  · simp [entries]
  · obtain ⟨-, noEntries, noLower⟩ := h p dir there
    exact ⟨fun _ => noLower, by simp [noLower], by simp [noLower], by simp [noEntries]⟩
  · simp [entries]

/-- After a run in which whatever is removed goes by a name that is not ambiguous, names are
looked up by their lower-case forms where case does not count, and a name that is removed or
renamed takes one entry with it, of that name up to case, also where it is ambiguous. -/
theorem map_by_lowered_name {md : Metadata} (initial : md.Nameless) {steps : List EntryStep}
    (clear : StepSystem.Along entryStep Clear md steps) :
    let md := StepSystem.run entryStep md steps
    (∀ dir name, (md.lookup dir name).isSome = true ↔ ∃ e ∈ md.entries dir, md.Means dir e.1 name) ∧
    (∀ dir name, md.Leads dir name → (∃ e ∈ md.entries dir, md.Means dir e.1 name) →
      ∃ md', md.unlinkName dir name = some md' ∧ RemovesOne md md' dir name) ∧
    ∀ place src nameSrc dst nameDst, md.Leads src nameSrc → md.Leads dst nameDst →
      md.IsDirectory dst → nameCheck nameDst = true →
      (∃ e ∈ md.entries src, md.Means src e.1 nameSrc) →
      ∃ md', md.renameName place src nameSrc dst nameDst = some md' ∧
        (MovesNothing md md' src nameSrc dst nameDst ∨
          MovesOne md md' src nameSrc dst nameDst) := by
  intro md
  have tracked : Tracked md :=
    StepSystem.invariant_run (fun _ step h => h.entryStep step) initial.tracked clear
  refine ⟨fun dir name => tracked.lookup_isSome_iff, ?_, ?_⟩
  · rintro dir name leads ⟨e, mem, means⟩
    exact tracked.unlinks leads mem means
  · rintro place src nameSrc dst nameDst leadsSrc leadsDst directory fine ⟨e, mem, means⟩
    exact tracked.renames place leadsSrc leadsDst mem means directory
      (tracked.nameCheck_baseName fine)

theorem Nameless.addNode {md : Metadata} (h : md.Nameless) (id : InodeId) (type : FSNodeType) :
    (md.addNode id ⟨type, [], 0, [], [], [], false⟩).Nameless := by
  intro other n there
  rw [node_addNode] at there
  by_cases eq : other = id
  · rw [if_pos eq] at there
    obtain rfl := some.inj there
    exact ⟨rfl, rfl, rfl⟩
  · rw [if_neg eq] at there
    exact h other n there

/-- A directory and two files, all without a name. -/
def threeNodes : Metadata :=
  let node (type : FSNodeType) : FSNode := ⟨type, [], 0, [], [], [], false⟩
  (((⟨∅, ∅, ∅⟩ : Metadata).addNode 1 (node .directory)).addNode 4 (node .file)).addNode 5
    (node .file)

theorem nameless_threeNodes : threeNodes.Nameless := by
  have nothing : (⟨∅, ∅, ∅⟩ : Metadata).Nameless := by
    intro id n there
    rw [node] at there
    cases there
  exact ((nothing.addNode 1 .directory).addNode 4 .file).addNode 5 .file

/-- The directory is used without case, gets `Foo` and `bar`, `FOO` is renamed to `baz` and
`BAR` is removed; with case it gets `Baz` beside `baz`, and is used without case again. -/
def usedWithoutCase : List EntryStep :=
  [.useCase 1 true, .add 0 1 4 [70, 111, 111], .add 0 1 5 [98, 97, 114],
    .rename 0 1 [70, 79, 79] 1 [98, 97, 122], .unlink 1 [66, 65, 82], .useCase 1 false,
    .add 0 1 5 [66, 97, 122], .useCase 1 true]

/-- `BAZ` is ambiguous, is found, and is removed with one of the two entries. -/
theorem map_by_lowered_name_usedWithoutCase :
    let md := StepSystem.run entryStep threeNodes usedWithoutCase
    md.entries 1 = [([66, 97, 122], 5), ([98, 97, 122], 4)] ∧ ¬ md.Unambiguous 1 [66, 65, 90] ∧
    (md.lookup 1 [66, 65, 90]).isSome = true ∧
    ∃ md', md.unlinkName 1 [66, 65, 90] = some md' ∧ RemovesOne md md' 1 [66, 65, 90] := by
  have clear : StepSystem.Along entryStep Clear threeNodes usedWithoutCase := by decide
  obtain ⟨lookup, unlinks, -⟩ := map_by_lowered_name nameless_threeNodes clear
  exact ⟨by decide, by decide, (lookup 1 [66, 65, 90]).mpr (by decide),
    unlinks 1 [66, 65, 90] (by decide) (by decide)⟩

/-- Only one of `foo` and `Foo` is found when case no longer counts; once it is removed, the other
one is still there and hidden [SPEC filesystem_node_types.h:566-575]. -/
theorem hidden_name_not_found :
    let md := StepSystem.run entryStep threeNodes
      [.add 0 1 4 [102, 111, 111], .add 0 1 5 [70, 111, 111], .useCase 1 true,
        .unlink 1 [102, 111, 111]]
    md.folds 1 = true ∧ md.entries 1 = [([102, 111, 111], 4)] ∧
      md.lookup 1 [102, 111, 111] = none := by
  decide

-- A file with the names `a` and `B`: removing `b` removes `a`, its first name in the directory.
example :
    ((StepSystem.run entryStep threeNodes
      [.useCase 1 true, .add 0 1 4 [97], .add 0 1 4 [66]]).unlinkName 1 [98]).map (·.entries 1) =
        some [([66], 4)] := by
  decide

end Metadata

end LeilFS.Nodes
