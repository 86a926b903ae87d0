/-
Module: LeilFS.Nodes.Namespace
Purpose: Every run of the operations leaves the file system a tree.
Trusted boundary: none
-/
import LeilFS.Lib.StepSystem
import LeilFS.Nodes.Operations

namespace LeilFS.Nodes

open List Command Ends

/-- The session takes the name of an entry for the given one. -/
def Session.matchesName (s : Session) (entry name : Name) : Bool :=
  if s.caseInsensitive then toLowerCase entry = toLowerCase name else entry = name

namespace Metadata

variable {md md' : Metadata} {s : Session} {dir child : InodeId} {name : Name}

/-! ## Looking for nodes -/

theorem SameEdges.refl (md : Metadata) : SameEdges md md :=
  ⟨fun _ => rfl, fun _ => rfl, fun _ => rfl, rfl⟩

theorem SameEdges.trans {md'' : Metadata} (first : SameEdges md md') (second : SameEdges md' md'') :
    SameEdges md md'' :=
  ⟨fun c => (second.type c).trans (first.type c),
    fun c => (second.parents c).trans (first.parents c),
    fun c => (second.entries c).trans (first.entries c), second.trash.trans first.trash⟩

theorem SameEdges.isDirectory (eq : SameEdges md md') :
    md'.IsDirectory dir ↔ md.IsDirectory dir := by
  rw [IsDirectory, eq.type]
  rfl

/-- The names of the directory differ by more than case. -/
def Distinct (md : Metadata) (dir : InodeId) : Prop :=
  ((md.entries dir).map fun e => toLowerCase e.1).Nodup

instance (md : Metadata) (dir : InodeId) : Decidable (md.Distinct dir) :=
  inferInstanceAs (Decidable (((md.entries dir).map fun e => toLowerCase e.1).Nodup))

theorem Distinct.of_sameEdges (eq : SameEdges md md') (h : md.Distinct dir) : md'.Distinct dir := by
  rw [Distinct, eq.entries]
  exact h

/-- A directory takes over the session's way of comparing names. -/
theorem Sound.useCase (h : Sound md) (caseInsensitive : Bool)
    (distinct : caseInsensitive = true → md.Distinct dir) :
    Sound (md.modify dir (FSNode.useCase caseInsensitive)) ∧
      SameEdges md (md.modify dir (FSNode.useCase caseInsensitive)) := by
  obtain ⟨inv, eq⟩ := h.coherent.useCase caseInsensitive distinct
  exact ⟨h.of_sameEdges inv eq, eq⟩

theorem folds_useCase (caseInsensitive : Bool) (ne : md.type? dir ≠ none) :
    (md.modify dir (FSNode.useCase caseInsensitive)).folds dir = caseInsensitive := by
  rw [folds, node_modify, if_pos rfl]
  cases node : md.node dir with
  | none => rw [type?, node] at ne; exact absurd rfl ne
  | some n =>
    obtain ⟨lower, eq⟩ := n.exists_useCase caseInsensitive
    rw [Option.map_some, eq]
    rfl

theorem type?_ne_none_of_isSome {id : InodeId} (h : (md.node id).isSome = true) :
    md.type? id ≠ none := by
  obtain ⟨n, there⟩ := Option.isSome_iff_exists.mp h
  rw [type?, there]
  simp

/-- The candidate is the node that the session means, and exists. -/
theorem Sound.getCandidate (h : Sound md) (s : Session) (inode : InodeId) :
    Ends (getCandidate s inode) md
      (fun id md' => md' = md ∧ id = s.resolve inode ∧ md.type? id ≠ none ∧
        (s.rootinode = 0 → md.isDetached id = true)) (fun _ md' => md' = md) := by
  refine .bind_get ?_
  by_cases whole : s.rootinode = specialInodeRoot ∨ s.rootinode = 0
  · rw [if_pos whole]
    refine .bind_check rfl fun there => ?_
    refine .bind_check rfl fun metaOnly => pure
      ⟨rfl, ?_, type?_ne_none_of_isSome there, fun zero => ?_⟩
    · rw [Session.resolve, if_neg]
      rintro ⟨notRoot, notZero, -⟩
      exact whole.elim notRoot notZero
    · simpa [zero] using metaOnly
  rw [if_neg whole]
  have part := not_or.mp whole
  refine .bind_check rfl fun root => ?_
  have rootDirectory : md.IsDirectory s.rootinode := of_decide_eq_true root
  by_cases own : inode = specialInodeRoot ∨ inode = s.rootinode
  · rw [if_pos own]
    refine pure ⟨rfl, ?_, by rw [rootDirectory]; simp, fun zero => absurd zero part.2⟩
    rw [Session.resolve]
    rcases own with rfl | rfl
    · rw [if_pos ⟨part.1, part.2, rfl⟩]
    · rw [if_neg fun h => part.1 h.2.2]
  rw [if_neg own]
  refine .bind_check rfl fun there => ?_
  obtain ⟨answer, walked⟩ :
      ∃ answer, md.isAncestorOrNodeReservedOrTrash s.rootinode inode = some answer := by
    unfold isAncestorOrNodeReservedOrTrash
    split
    · exact ⟨true, rfl⟩
    · obtain ⟨answer, walked, -⟩ := h.isAncestor s.rootinode inode
      exact ⟨answer, walked⟩
  refine bind (require walked ?_)
  refine .bind_check rfl fun _ => pure
    ⟨rfl, ?_, type?_ne_none_of_isSome there, fun zero => absurd zero part.2⟩
  rw [Session.resolve, if_neg fun h => own (.inl h.2.2)]

/-- What the look-up of an operation's node gives. -/
structure Found (md md' : Metadata) (s : Session) (expected : ExpectedNodeType)
    (id : InodeId) : Prop where
  sound : Sound md'
  same : SameEdges md md'
  there : md'.type? id ≠ none
  directory : expected = .directory → md'.IsDirectory id ∧ md'.folds id = s.caseInsensitive
  other : expected = .notDirectory → ¬ md'.IsDirectory id

theorem verify_eq_none {expected : ExpectedNodeType} {isDirectory : Bool}
    (passes : expected.verify isDirectory = none) : (expected = .directory → isDirectory = true) ∧
      (expected = .notDirectory → isDirectory = false) := by
  cases expected <;> cases isDirectory <;> simp_all [ExpectedNodeType.verify]

theorem Sound.getNodeForOperation (h : Sound md) (s : Session) (expected : ExpectedNodeType)
    (inode : InodeId)
    (distinct : expected ≠ .notDirectory → s.rootinode ≠ 0 → s.caseInsensitive = true →
      md.Distinct (s.resolve inode)) : Ends (getNodeForOperation s expected inode) md
      (fun id md' => id = s.resolve inode ∧ Found md md' s expected id)
      (fun _ md' => md' = md) := by
  refine Ends.bind ((h.getCandidate s inode).mono (fun id md' found => ?_) fun _ _ eq => eq)
  obtain ⟨rfl, rfl, there, metaOnly⟩ := found
  refine .bind_report (fun _ => rfl) fun passes => ?_
  obtain ⟨directory, other⟩ := verify_eq_none passes
  refine .bind_check rfl fun _ => ?_
  refine Ends.bind (Ends.modify (Ends.pure ⟨rfl, ?_⟩))
  by_cases isDir : md'.IsDirectory (s.resolve inode)
  · rw [if_pos isDir]
    have allowed : expected ≠ .notDirectory := fun notDir => by
      have := other notDir
      rw [decide_eq_true isDir] at this
      cases this
    have notMeta : s.rootinode ≠ 0 := fun zero => by
      have := metaOnly zero
      rw [isDetached, isDir] at this
      cases this
    obtain ⟨sound, eq⟩ := h.useCase s.caseInsensitive (distinct allowed notMeta)
    refine ⟨sound, eq, ?_, fun _ => ⟨eq.isDirectory.mpr isDir, folds_useCase _ there⟩,
      fun notDir => absurd notDir allowed⟩
    rw [eq.type]
    exact there
  · rw [if_neg isDir]
    refine ⟨h, SameEdges.refl md', there, fun needed => ?_, fun _ => isDir⟩
    have := directory needed
    rw [decide_eq_false isDir] at this
    cases this

/-- The operation leaves a sound file system, whatever it answers. -/
abbrev KeepsSound {α : Type} (op : Operation α) (md : Metadata) : Prop :=
  Ends op md (fun _ => Sound) fun _ => Sound

/-- An operation that goes on with the node. -/
theorem Sound.bind_getNode (h : Sound md) {expected : ExpectedNodeType} {inode : InodeId}
    {f : InodeId → Operation Unit}
    (distinct : expected ≠ .notDirectory → s.rootinode ≠ 0 → s.caseInsensitive = true →
      md.Distinct (s.resolve inode))
    (rest : ∀ md', Found md md' s expected (s.resolve inode) →
      KeepsSound (f (s.resolve inode)) md') :
    KeepsSound (Nodes.getNodeForOperation s expected inode >>= f) md := by
  refine bind ((h.getNodeForOperation s expected inode distinct).mono (fun id md' found => ?_)
    fun _ _ eq => eq ▸ h)
  obtain ⟨rfl, found⟩ := found
  exact rest md' found

/-! ## Base names -/

/-- The base name of a node that is found leads to its entry, and the node has an entry whose
name is the given one, up to case where case does not count. -/
theorem Coherent.resolved_baseName (h : Coherent md)
    (found : md.lookup dir (md.baseName dir name) = some child) :
    ∃ stored, Resolved md dir (md.baseName dir name) stored child ∧
      ∃ variant, (variant, child) ∈ md.entries dir ∧
        (md.folds dir = true → toLowerCase variant = toLowerCase name) ∧
        (md.folds dir = false → variant = name) := by
  obtain ⟨⟨stored, c⟩, entry, rfl⟩ := Option.map_eq_some_iff.mp found
  rcases h.find_cases entry with ⟨folds, eq, mem⟩ | ⟨folds, first, -⟩
  · have plain : md.baseName dir name = name := by
      rw [baseName, if_neg (by simp [folds])]
    refine ⟨stored, ⟨mem, fun _ => eq, fun yes => absurd yes (by simp [folds]),
      fun yes => absurd yes (by simp [folds])⟩, stored, mem,
      fun yes => absurd yes (by simp [folds]), fun _ => eq.trans plain⟩
  -- the lower-case container knows the given name, or nothing would be found
  obtain ⟨d, there, sameEntries, sameFolds⟩ :=
    node_of_mem_entries (h.twoSided.mem_of_firstEntryIn first)
  cases low : d.findLowercaseContainer name with
  | none =>
    have base : md.baseName dir name = name := by
      rw [baseName, if_neg]
      rintro ⟨-, ne⟩
      rw [getBaseStoredChildName, there] at ne
      simp [low] at ne
    rw [base, find, there, Option.bind_some, if_pos (sameFolds.symm.trans folds), low] at entry
    cases entry
  | some lowEntry =>
    obtain ⟨key, owner⟩ := lowEntry
    obtain ⟨-, variant, mem, eq⟩ := h.exists_of_findLowercaseContainer there low
    have inEntries : (variant, owner) ∈ md.entries dir := sameEntries ▸ mem
    obtain ⟨name', isFirst⟩ := exists_firstEntryIn ((h.edges owner dir variant).mpr inEntries)
    have stored' : md.getBaseStoredChildName dir name = name' := by
      rw [getBaseStoredChildName, there]
      simp [low, isFirst]
    have ne : name' ≠ [] := h.named dir _ (h.twoSided.mem_of_firstEntryIn isFirst)
    have base : md.baseName dir name = name' := by
      rw [baseName, stored', if_pos ⟨folds, ne⟩]
    have resolved := h.resolved_of_first folds isFirst
    rw [base, h.find_eq resolved] at entry
    cases entry
    exact ⟨stored, base ▸ resolved, variant, inEntries, fun _ => eq,
      fun no => absurd no (by simp [folds])⟩

/-! ## The operations -/

theorem Sound.create (h : Sound md) (place : Place) (choice : InodeId) {type : FSNodeType}
    (live : type ≠ .trash) (notReserved : type ≠ .reserved) (isDir : md.IsDirectory dir)
    (ne : name ≠ []) (fresh : Fresh md dir name) :
    KeepsSound (create place choice dir name type) md := by
  obtain ⟨id, md', created, sound, -⟩ := h.createNode place choice live notReserved isDir
    ne fresh
  refine update ?_ sound
  rw [created]
  rfl

section InDirectory

variable {place : Place} {choice parent : InodeId} {path : Name}

/-- The flag that `mkdir` and `mknod` write is the one that the look-up has set. -/
theorem setFlag_eq_self (folds : md.folds dir = s.caseInsensitive) :
    (md.modify dir fun n => { n with caseInsensitive := s.caseInsensitive }) = md := by
  refine modify_eq_self fun n there => ?_
  rw [← folds, Metadata.folds, there]
  rfl

variable (h : Sound md) (distinct : s.caseInsensitive = true → md.Distinct (s.resolve parent))
include h distinct

theorem Sound.mkdir : KeepsSound (mkdir s place choice parent name) md := by
  refine .bind_report (fun _ => h) fun _ => ?_
  refine h.bind_getNode (fun _ _ => distinct) fun md' found => ?_
  obtain ⟨isDir, folds⟩ := found.directory rfl
  refine .bind_check found.sound fun named => ?_
  refine .bind_check found.sound fun unused => ?_
  refine .bind_report (fun _ => found.sound) fun _ => ?_
  refine .bind_check found.sound fun _ => ?_
  refine Ends.bind (Ends.modify ?_)
  rw [setFlag_eq_self folds]
  exact found.sound.create place choice (by simp) (by simp) isDir
    (ne_nil_of_nameCheck named) (found.sound.coherent.fresh (by simpa using unused))

theorem Sound.mknod {type : FSNodeType} :
    KeepsSound (mknod s type place choice parent name) md := by
  refine .bind_report (fun _ => h) fun _ => ?_
  refine .bind_check h fun allowed => ?_
  refine h.bind_getNode (fun _ _ => distinct) fun md' found => ?_
  obtain ⟨isDir, folds⟩ := found.directory rfl
  refine .bind_check found.sound fun named => ?_
  refine .bind_check found.sound fun unused => ?_
  refine .bind_report (fun _ => found.sound) fun _ => ?_
  refine Ends.bind (Ends.modify ?_)
  rw [setFlag_eq_self folds]
  refine found.sound.create place choice ?_ ?_ isDir (ne_nil_of_nameCheck named)
    (found.sound.coherent.fresh (by simpa using unused))
  · rintro rfl
    simp [mknodTypes] at allowed
  · rintro rfl
    simp [mknodTypes] at allowed

theorem Sound.hardLink {inodeSrc : InodeId} :
    KeepsSound (hardLink s place inodeSrc parent name) md := by
  refine .bind_report (fun _ => h) fun _ => ?_
  refine h.bind_getNode (fun _ _ => distinct) fun dirs found => ?_
  refine found.sound.bind_getNode (fun excluded => absurd rfl excluded) fun md' foundSource => ?_
  have sound := foundSource.sound
  refine .bind_get ?_
  refine .bind_check sound fun live => ?_
  refine .bind_check sound fun named => ?_
  refine .bind_check sound fun unused => ?_
  have directory := foundSource.same.isDirectory.mpr (found.directory rfl).1
  have kinds : md'.type? (s.resolve inodeSrc) ≠ some .trash ∧
      md'.type? (s.resolve inodeSrc) ≠ some .reserved := by
    simpa [isDetached] using live
  obtain ⟨result, linkedTo, inv, linked⟩ := sound.coherent.link place directory
    foundSource.there kinds.1 kinds.2 (ne_nil_of_nameCheck named)
    (sound.coherent.fresh (by simpa using unused))
  refine update linkedTo (sound.of_sameDirectories inv (fun d => ?_) fun d isDir => ?_)
  · rw [IsDirectory, linked.type]
    rfl
  · have ne : d ≠ s.resolve inodeSrc := by
      rintro rfl
      exact foundSource.other rfl isDir
    rw [linked.parents, if_neg ne]

theorem Sound.unlink_op : KeepsSound (Nodes.unlink s parent name) md := by
  refine .bind_report (fun _ => h) fun _ => ?_
  refine h.bind_getNode (fun _ _ => distinct) fun md' found => ?_
  have sound := found.sound
  refine .bind_get ?_
  refine .bind_check sound fun _ => ?_
  refine .bind_expect sound fun child there => ?_
  refine .bind_check sound fun _ => ?_
  refine .bind_check sound fun notDirectory => ?_
  refine .bind_report (fun _ => sound) fun _ => ?_
  obtain ⟨stored, resolved, -⟩ := sound.coherent.resolved_baseName there
  obtain ⟨result, run, sound', -⟩ := sound.unlink resolved
    (sound.coherent.entries_of_not_directory (of_decide_eq_true notDirectory))
  exact update run sound'

theorem Sound.rmdir : KeepsSound (rmdir s parent name) md := by
  refine .bind_report (fun _ => h) fun _ => ?_
  refine h.bind_getNode (fun _ _ => distinct) fun md' found => ?_
  have sound := found.sound
  refine .bind_check sound fun _ => ?_
  refine .bind_expect sound fun child there => ?_
  refine .bind_check sound fun _ => ?_
  refine .bind_check sound fun isDirectory => ?_
  refine .bind_check sound fun empty => ?_
  obtain ⟨⟨stored, c⟩, entry, rfl⟩ := Option.map_eq_some_iff.mp there
  have mem : (stored, c) ∈ md'.entries (s.resolve parent) := sound.coherent.mem_of_find entry
  -- a directory has one name only, so the name that was given leads to its entry
  obtain ⟨edge, single⟩ := sound.single c (of_decide_eq_true isDirectory) (sound.entry_ne_root mem)
  obtain ⟨result, run, sound', -⟩ := sound.unlink
    (sound.coherent.resolved_of_single single entry) (of_decide_eq_true empty)
  exact update run sound'

end InDirectory

/-! ### Moving a node -/

/-- The way up from a directory passes directories only. -/
theorem Sound.not_mem_ascent (h : Sound md) (isDir : md.IsDirectory dir)
    {path : List InodeId} (ascent : Forest.Ascent md.parentOf specialInodeRoot dir path)
    (other : ¬ md.IsDirectory child) : child ∉ path := fun on =>
  other (ascent.forall_mem isDir (fun d p _ step => (h.rooted.only d p step).2) child on)

theorem Sound.moveNode (h : Sound md) (s : Session) (place : Place)
    {sourceDir source destDir : InodeId} {nameSrc stored name : Name}
    (resolved : Resolved md sourceDir nameSrc stored source) (target : md.IsDirectory destDir)
    (named : nameCheck (md.baseName destDir name) = true)
    (ne : md.lookup destDir (md.baseName destDir name) ≠ some source) {path : List InodeId}
    (ascent : Forest.Ascent md.parentOf specialInodeRoot destDir path) (off : source ∉ path) :
    KeepsSound
      (moveNode s place sourceDir source destDir nameSrc (md.baseName destDir name)) md := by
  refine .bind_get ?_
  cases taken : md.lookup destDir (md.baseName destDir name) with
  | none =>
    refine .bind_report (fun _ => h) fun _ => ?_
    refine bind (pure ?_)
    have fresh := h.coherent.fresh
      (show md.isNameUsed destDir (md.baseName destDir name) = false by
        rw [isNameUsed, taken]; rfl)
    obtain ⟨cut, md', removedTo, linkedTo, sound⟩ := h.move place resolved target
      (ne_nil_of_nameCheck named) fresh ascent off
    exact bind (update removedTo (update linkedTo sound))
  | some replaced =>
    rw [taken] at ne
    have otherNode : source ≠ replaced := fun eq => ne (by rw [eq])
    obtain ⟨stored', resolved', -⟩ := h.coherent.resolved_baseName taken
    refine bind (bind (check (fun emptyOrFile => ?_) fun _ => h))
    refine check (fun _ => ?_) fun _ => h
    refine .bind_report (fun _ => h) fun _ => ?_
    refine bind (bind (report (fun _ => ?_) fun _ => h))
    have empty : md.entries replaced = [] := by
      rcases of_decide_eq_true emptyOrFile with file | empty
      · exact h.coherent.entries_of_not_directory file
      · exact empty
    have holds : ∀ p e, e ∈ md.entries p → p ≠ replaced := by
      rintro p e mem rfl
      rw [empty] at mem
      cases mem
    obtain ⟨md', run, sound, unlinked⟩ := h.unlink resolved' empty
    have otherDest := holds destDir _ resolved'.entry
    have target' : md'.IsDirectory destDir := by
      rw [IsDirectory, unlinked.type destDir otherDest]
      exact target
    obtain ⟨cut, result, removedTo, linkedTo, sound'⟩ := sound.move place
      (resolved.of_unlinked unlinked (holds sourceDir _ resolved.entry) otherNode) target'
      (ne_nil_of_nameCheck named) (h.coherent.fresh_unlinked resolved' unlinked otherDest)
      (h.ascent_unlinked unlinked empty otherDest ascent) off
    exact update run (bind (update removedTo (update linkedTo sound')))

/-- The destination directory is not the node to be renamed. -/
def NotIntoItself (md : Metadata) (s : Session) (parentSrc : InodeId) (nameSrc : Name)
    (parentDst : InodeId) : Prop :=
  ∀ e ∈ md.entries (s.resolve parentSrc), s.matchesName e.1 nameSrc = true →
    e.2 ≠ s.resolve parentDst

theorem Sound.rename (h : Sound md) {place : Place} {parentSrc parentDst : InodeId}
    {nameSrc nameDst : Name} (elsewhere : NotIntoItself md s parentSrc nameSrc parentDst)
    (distinctSrc : s.caseInsensitive = true → md.Distinct (s.resolve parentSrc))
    (distinctDst : s.caseInsensitive = true → md.Distinct (s.resolve parentDst)) :
    KeepsSound (rename s place parentSrc nameSrc parentDst nameDst) md := by
  refine .bind_report (fun _ => h) fun _ => ?_
  refine h.bind_getNode (fun _ _ => distinctDst) fun dirs foundDst => ?_
  refine foundDst.sound.bind_getNode
    (fun _ _ ci => (distinctSrc ci).of_sameEdges foundDst.same) fun md' foundSrc => ?_
  have sound := foundSrc.sound
  have eq := foundDst.same.trans foundSrc.same
  have target := foundSrc.same.isDirectory.mpr (foundDst.directory rfl).1
  refine .bind_get ?_
  refine .bind_check sound fun _ => ?_
  refine .bind_expect sound fun source there => ?_
  refine .bind_check sound fun _ => ?_
  obtain ⟨stored, resolved, variant, mem, folding, plain⟩ := sound.coherent.resolved_baseName there
  have notItself : source ≠ s.resolve parentDst := by
    refine elsewhere (variant, source) (eq.entries _ ▸ mem) ?_
    have flag := (foundSrc.directory rfl).2
    rw [Session.matchesName, ← flag]
    cases folds : md'.folds (s.resolve parentSrc) with
    | true => simpa using folding folds
    | false => simpa using plain folds
  obtain ⟨answer, walked, denied⟩ := sound.isAncestor source (s.resolve parentDst)
  by_cases isDir : md'.IsDirectory source
  · rw [if_pos isDir]
    refine bind (require walked ?_)
    refine .bind_check sound fun notBelow => ?_
    obtain ⟨path, ascent, off⟩ := denied (by simpa using notBelow) notItself
      (sound.entry_ne_root resolved.entry) target
    refine .bind_check sound fun named => ?_
    split
    · exact pure sound
    next ne => exact sound.moveNode s place resolved target named ne ascent off
  · rw [if_neg isDir]
    refine bind (require rfl ?_)
    refine .bind_check sound fun _ => ?_
    obtain ⟨path, ascent⟩ := sound.rooted.ascent _ target
    refine .bind_check sound fun named => ?_
    split
    · exact pure sound
    next ne =>
      exact sound.moveNode s place resolved target named ne ascent
        (sound.not_mem_ascent target ascent isDir)

/-! ### Symbolic links -/

/-- The directories on a path, when case does not count. -/
def canonicalDirs (md : Metadata) : InodeId → List Name → List InodeId
  | _, [] => []
  | current, name :: rest =>
      if name = [] then md.canonicalDirs current rest
      else if ¬ md.IsDirectory current then []
      else
        current ::
          match (md.entries current).find? (fun e => toLowerCase e.1 = toLowerCase name) with
          | none => []
          | some e => md.canonicalDirs e.2 rest

theorem canonicalDirs_congr (eq : SameEdges md md') (names : List Name) :
    ∀ current, md'.canonicalDirs current names = md.canonicalDirs current names := by
  induction names with
  | nil => exact fun _ => rfl
  | cons name rest ih =>
    intro current
    simp only [canonicalDirs, eq.entries, eq.isDirectory, ih]

/-- The walk of `getCanonicalPath` switches directories whose names differ by more than
case. -/
theorem Sound.canonicalLoop (s : Session) (folding : s.caseInsensitive = true) (names : List Name) :
    ∀ (md : Metadata) (current : InodeId) (result : Name), Sound md →
      (∀ d ∈ md.canonicalDirs current names, md.Distinct d) →
      Sound (canonicalLoop s current names result md).2 ∧
        SameEdges md (canonicalLoop s current names result md).2 := by
  induction names with
  | nil => exact fun md _ _ h _ => ⟨h, SameEdges.refl md⟩
  | cons name rest ih =>
    intro md current result h distinct
    unfold Nodes.canonicalLoop
    unfold canonicalDirs at distinct
    by_cases empty : name = []
    · rw [if_pos empty] at distinct ⊢
      exact ih md current result h distinct
    rw [if_neg empty] at distinct ⊢
    by_cases isDir : md.IsDirectory current
    · rw [if_neg (not_not.mpr isDir)] at distinct ⊢
      have here := distinct current (mem_cons_self ..)
      obtain ⟨sound, eq⟩ := h.useCase s.caseInsensitive fun _ => here
      have folds := folds_useCase s.caseInsensitive
        (show md.type? current ≠ none by rw [isDir]; simp)
      simp only [folding, if_true, true_and] at sound eq folds ⊢
      set md' := md.modify current (FSNode.useCase true)
      by_cases unknown : md'.getBaseStoredChildName current name = []
      · rw [if_pos unknown]
        exact ⟨sound, eq⟩
      rw [if_neg unknown]
      have base : md'.baseName current name = md'.getBaseStoredChildName current name := by
        rw [baseName, if_pos ⟨folds, unknown⟩]
      cases found : md'.lookup current (md'.getBaseStoredChildName current name) with
      | none => exact ⟨sound, eq⟩
      | some child =>
        obtain ⟨-, -, variant, mem, matching, -⟩ := sound.coherent.resolved_baseName (base ▸ found)
        have lowered := matching folds
        rw [eq.entries] at mem
        have next : (md.entries current).find?
            (fun e => toLowerCase e.1 = toLowerCase name) = some (variant, child) := by
          rw [← lowered]
          exact KeyedList.find?_key here mem
        rw [next] at distinct
        have below : ∀ d ∈ md'.canonicalDirs child rest, md'.Distinct d := by
          intro d on
          rw [canonicalDirs_congr eq] at on
          exact (distinct d (mem_cons_of_mem _ on)).of_sameEdges eq
        obtain ⟨sound', eq'⟩ := ih md' child _ sound below
        exact ⟨sound', eq.trans eq'⟩
    · rw [if_pos isDir]
      exact ⟨h, SameEdges.refl md⟩

/-- The directories on the target of a symbolic link. -/
def targetDirs (md : Metadata) (s : Session) (path : Name) : List InodeId :=
  md.canonicalDirs s.rootinode (components path)

theorem Sound.symlinkTarget (h : Sound md) (s : Session) (path : Name)
    (flag : md.folds dir = s.caseInsensitive)
    (distinct : s.caseInsensitive = true → ∀ d ∈ md.targetDirs s path, md.Distinct d) :
    Ends (symlinkTarget s dir path) md (fun _ md' => Sound md' ∧ SameEdges md md')
      (fun _ _ => False) := by
  cases folds : md.folds dir with
  | false =>
    refine ⟨md, .inl ⟨path, ?_, h, SameEdges.refl md⟩⟩
    rw [Nodes.symlinkTarget, folds]
    rfl
  | true =>
    have folding := flag.symm.trans folds
    have walked : Sound (getCanonicalPath s path md).2 ∧
        SameEdges md (getCanonicalPath s path md).2 := by
      unfold getCanonicalPath
      split
      · exact Sound.canonicalLoop s folding _ md _ _ h (distinct folding)
      · exact ⟨h, SameEdges.refl md⟩
    refine ⟨(getCanonicalPath s path md).2, .inl
      ⟨(getCanonicalPath s path md).1.getD path, ?_, walked⟩⟩
    rw [Nodes.symlinkTarget, folds]
    rfl

theorem Sound.symlink (h : Sound md) {place : Place} {choice parent : InodeId} {path : Name}
    (distinct : s.caseInsensitive = true → md.Distinct (s.resolve parent))
    (distinctTarget : s.caseInsensitive = true → ∀ d ∈ md.targetDirs s path, md.Distinct d) :
    KeepsSound (symlink s place choice parent name path) md := by
  refine .bind_report (fun _ => h) fun _ => ?_
  refine h.bind_getNode (fun _ _ => distinct) fun md' found => ?_
  obtain ⟨isDir, flag⟩ := found.directory rfl
  have targets : md'.targetDirs s path = md.targetDirs s path := canonicalDirs_congr found.same _ _
  refine bind ((found.sound.symlinkTarget s path flag fun ci d on =>
    (distinctTarget ci d (targets ▸ on)).of_sameEdges found.same).mono
    (fun basePath md'' walked => ?_) fun _ _ no => no.elim)
  obtain ⟨sound, eq⟩ := walked
  refine .bind_check sound fun _ => ?_
  refine .bind_check sound fun _ => ?_
  refine .bind_check sound fun named => ?_
  refine .bind_check sound fun unused => ?_
  refine .bind_report (fun _ => sound) fun _ => ?_
  exact sound.create place choice (by simp) (by simp) (eq.isDirectory.mpr isDir)
    (ne_nil_of_nameCheck named) (sound.coherent.fresh (by simpa using unused))

/-! ### Files back from the trash -/

theorem splitOn_cons (b c : UInt8) (rest : Name) : (c :: rest).splitOn b =
      if c = b then [] :: rest.splitOn b else (rest.splitOn b).modifyHead (List.cons c) := by
  simp [splitOn, splitOnP_cons_eq_if_modifyHead]

/-- No component of a valid path is empty. -/
theorem components_of_validSegments (path : Name) :
    ∀ partLength dots, validSegments partLength dots path = true →
      ∃ first rest, components path = first :: rest ∧ (partLength = 0 → first ≠ []) ∧
        ∀ segment ∈ rest, segment ≠ [] := by
  induction path with
  | nil =>
    intro partLength dots valid
    refine ⟨[], [], rfl, fun zero => ?_, by simp⟩
    simp [validSegments, zero] at valid
  | cons b path ih =>
    intro partLength dots valid
    unfold validSegments at valid
    unfold components at ih ⊢
    by_cases null : b = 0
    · rw [if_pos null] at valid
      cases valid
    rw [if_neg null] at valid
    by_cases slash : b = 47
    · rw [if_pos slash] at valid
      simp only [Bool.and_eq_true] at valid
      obtain ⟨first, rest, split, ne, others⟩ := ih 0 0 valid.2
      refine ⟨[], first :: rest, ?_, fun zero => ?_, ?_⟩
      · rw [splitOn_cons, if_pos slash, split]
      · simp [zero] at valid
      · intro segment mem
        rcases mem_cons.mp mem with rfl | later
        · exact ne rfl
        · exact others segment later
    · rw [if_neg slash] at valid
      simp only [Bool.and_eq_true] at valid
      obtain ⟨first, rest, split, -, others⟩ := ih _ _ valid.2
      refine ⟨b :: first, rest, ?_, by simp, others⟩
      rw [splitOn_cons, if_neg slash, split]
      rfl

/-- The file leaves the trash for a new name. -/
theorem Sound.restore (h : Sound md) (place : Place) {file : InodeId}
    (trash : md.type? file = some .trash) (directory : md.IsDirectory dir) (ne : name ≠ [])
    (fresh : Fresh md dir name) : ∃ md', restore place file dir name md = some md' ∧ Sound md' := by
  set back : Metadata :=
    { md.modify file (fun n => { n with type := .file }) with trash := md.trash.erase file }
    with back_eq
  have node : ∀ c, c ≠ file → back.node c = md.node c := fun c other => by
    show (md.modify file _).node c = _
    rw [node_modify, if_neg other]
  have parents : ∀ c, back.parents c = md.parents c := fun c => parents_modify fun _ => rfl
  have entries : ∀ c, back.entries c = md.entries c := fun c => entries_modify fun _ => rfl
  have folds : ∀ c, back.folds c = md.folds c := fun c => folds_modify fun _ => rfl
  have type : ∀ c, c ≠ file → back.type? c = md.type? c := fun c other => by
    rw [type?, node c other]
    rfl
  have typed : back.type? file = some .file := by
    obtain ⟨n, there, -⟩ := Option.map_eq_some_iff.mp trash
    show ((md.modify file _).node file).map _ = _
    rw [node_modify, if_pos rfl, there]
    rfl
  have notDirectory : ¬ md.IsDirectory file := by
    rw [IsDirectory, trash]
    simp
  have inv : Coherent back := by
    refine h.coherent.of_same parents entries (fun p some => type p ?_) ?_ (fun c kind => ?_)
      (fun c kind => ?_)
    · rintro rfl
      exact some (h.coherent.entries_of_not_directory notDirectory)
    · refine forall_modify h.coherent.folded fun d there => ?_
      have folded := h.coherent.folded file d there
      exact ⟨folded.sensitive, folded.distinct, folded.lowered⟩
    · have other : c ≠ file := by
        rintro rfl
        rw [typed] at kind
        simp at kind
      rw [type c other] at kind
      exact h.coherent.detached c kind
    · have other : c ≠ file := by
        rintro rfl
        rw [typed] at kind
        cases kind
      rw [type c other] at kind
      exact Finmap.mem_erase.mpr ⟨other, h.coherent.trashed c kind⟩
  have dirNotFile : dir ≠ file := by
    rintro rfl
    exact notDirectory directory
  have directory' : back.IsDirectory dir := by
    rw [IsDirectory, type dir dirNotFile]
    exact directory
  have fresh' : Fresh back dir name := by
    refine ⟨?_, fun yes => ?_⟩
    · rw [entries]
      exact fresh.plain
    · rw [entries]
      exact fresh.folded (folds dir ▸ yes)
  obtain ⟨md', linkedTo, inv', linked⟩ := inv.link place directory'
    (by rw [typed]; simp) (by rw [typed]; simp) (by rw [typed]; simp) ne fresh'
  refine ⟨md', linkedTo, h.of_sameDirectories inv' (fun d => ?_) fun d isDir => ?_⟩
  · rw [IsDirectory, linked.type]
    by_cases eq : d = file
    · rw [eq, typed]
      simp [notDirectory]
    · rw [type d eq]
      rfl
  · have other : d ≠ file := by
      rintro rfl
      exact notDirectory isDir
    rw [linked.parents, if_neg other, parents]

/-- A name is new in a directory that is empty or in which it is not found. -/
theorem Coherent.fresh_of_empty (empty : md.entries dir = []) : Fresh md dir name := by
  refine ⟨?_, fun _ => ?_⟩ <;> simp [empty]

theorem Sound.undelAlong (place : Place) (file : InodeId) (segments : List Name) :
    ∀ (md : Metadata) (choices : List InodeId) (isNew : Bool) (parent : InodeId), Sound md →
      md.type? file = some .trash → md.IsDirectory parent →
      (isNew = true → md.entries parent = []) → segments ≠ [] →
      (∀ segment ∈ segments, segment ≠ []) →
      KeepsSound (undelAlong place file choices isNew parent segments) md := by
  induction segments with
  | nil => exact fun _ _ _ _ _ _ _ _ some => absurd rfl some
  | cons name rest ih =>
    intro md choices isNew parent h trash directory new _ ne
    have named := ne name (mem_cons_self ..)
    have others := fun segment mem => ne segment (mem_cons_of_mem name mem)
    cases rest with
    | nil =>
      refine .bind_check h fun unused => ?_
      obtain ⟨md', restored, sound⟩ := h.restore place trash directory named
        (h.coherent.fresh (by simpa using unused))
      exact update restored sound
    | cons next rest =>
      refine .bind_get ?_
      have fresh : (if isNew = true then none else md.lookup parent name) = none →
          Fresh md parent name := by
        intro missing
        cases isNew with
        | true => exact Coherent.fresh_of_empty (new rfl)
        | false =>
          refine h.coherent.fresh ?_
          rw [if_neg (by simp)] at missing
          rw [isNameUsed, missing]
          rfl
      cases eq : (if isNew = true then none else md.lookup parent name) with
      | some child =>
        refine .bind_check h fun isDir => ?_
        exact ih md choices false child h trash (of_decide_eq_true isDir) (by simp) (by simp) others
      | none =>
        obtain ⟨id, md', made, sound, created⟩ := h.createNode place (choices.headD 0)
          (show FSNodeType.directory ≠ .trash by simp) (by simp) directory named
          (fresh eq)
        refine bind (require made ?_)
        have other : file ≠ id := by
          rintro rfl
          rw [created.absent] at trash
          cases trash
        exact ih md' choices.tail true id sound ((created.others file other).trans trash)
          created.type (fun _ => created.entries) (by simp) others

theorem Sound.undel (h : Sound md) (s : Session) (place : Place) (choices : List InodeId)
    (inode : InodeId) : KeepsSound (undel s place choices inode) md := by
  refine .bind_report (fun _ => h) fun metaSession => ?_
  have metaRoot : s.rootinode = 0 := by
    unfold verifySession at metaSession
    by_contra other
    split at metaSession
    · cases metaSession
    · simp [other] at metaSession
  refine h.bind_getNode (fun _ other => absurd metaRoot other) fun md' found => ?_
  have sound := found.sound
  refine .bind_check sound fun trash => ?_
  refine .bind_report (fun _ => sound) fun _ => ?_
  have trash := of_decide_eq_true trash
  obtain ⟨path, kept⟩ := Finmap.mem_iff.mp (sound.coherent.trashed _ trash)
  refine bind (require kept ?_)
  refine .bind_check sound fun valid => ?_
  obtain ⟨first, rest, split, ne, others⟩ := components_of_validSegments _ 0 0 valid
  refine Sound.undelAlong place _ _ md' choices false specialInodeRoot sound trash
    sound.rootDirectory (by simp) (by simp [split]) ?_
  intro segment mem
  rw [split] at mem
  rcases mem_cons.mp mem with rfl | later
  · exact ne rfl
  · exact others segment later

end Metadata

/-! ## Runs -/

/-- The operations of clients, and changes of what decides where a file goes with its last
link: its trash time and the sessions that have it open. -/
inductive Call where
  | mkdir (s : Session) (place : Place) (choice parent : InodeId) (name : Name)
  | mknod (s : Session) (type : FSNodeType) (place : Place) (choice parent : InodeId) (name : Name)
  | symlink (s : Session) (place : Place) (choice parent : InodeId) (name path : Name)
  | link (s : Session) (place : Place) (inodeSrc parentDst : InodeId) (nameDst : Name)
  | unlink (s : Session) (parent : InodeId) (name : Name)
  | rmdir (s : Session) (parent : InodeId) (name : Name)
  | rename (s : Session) (place : Place) (parentSrc : InodeId) (nameSrc : Name)
      (parentDst : InodeId) (nameDst : Name)
  | undel (s : Session) (place : Place) (choices : List InodeId) (inode : InodeId)
  | setFile (inode : InodeId) (trashtime : Nat) (sessionIds : List Nat)

/-- A call as an operation. -/
def Call.operation : Call → Operation Unit
  | .mkdir s place choice parent name => Nodes.mkdir s place choice parent name
  | .mknod s type place choice parent name => Nodes.mknod s type place choice parent name
  | .symlink s place choice parent name path => Nodes.symlink s place choice parent name path
  | .link s place inodeSrc parentDst nameDst => Nodes.hardLink s place inodeSrc parentDst nameDst
  | .unlink s parent name => Nodes.unlink s parent name
  | .rmdir s parent name => Nodes.rmdir s parent name
  | .rename s place parentSrc nameSrc parentDst nameDst =>
      Nodes.rename s place parentSrc nameSrc parentDst nameDst
  | .undel s place choices inode => Nodes.undel s place choices inode
  | .setFile inode trashtime sessionIds =>
      Command.modify fun md => md.modify inode fun n =>
        { n with trashtime := trashtime, sessionIds := sessionIds }

namespace Metadata

/-- The root of a new file system. -/
def newRoot : FSNode where
  type := .directory
  parents := []
  trashtime := defaultTrashTime
  sessionIds := []
  entries := []
  lowerCaseEntries := []
  caseInsensitive := false

/-- The empty file system. -/
def empty : Metadata where
  nodes := Finmap.singleton specialInodeRoot newRoot
  trash := ∅
  reserved := ∅

/-- The state after a call, whatever its answer; none if the call does not return. -/
def step (md : Metadata) (call : Call) : Option Metadata :=
  (call.operation md).map Prod.snd

/-- A call after any others. -/
def stepRun (md : Option Metadata) (call : Call) : Option Metadata :=
  md.bind fun md => md.step call

/-- The file system is a tree: following the parent of a directory reaches the root and
visits no directory twice, every directory but the root has one parents entry, and entries
and parents entries say the same. -/
structure IsTree (md : Metadata) : Prop where
  reachesRoot : ∀ d, md.IsDirectory d →
    ∃ path, Forest.Ascent md.parentOf specialInodeRoot d path ∧ path.Nodup
  oneParent : ∀ d, md.IsDirectory d → d ≠ specialInodeRoot → ∃ edge, md.parents d = [edge]
  edges : ∀ c p name, (p, name) ∈ md.parents c ↔ (name, c) ∈ md.entries p

/-- The directories that a case-insensitive session may switch with a call. -/
def switched (md : Metadata) : Call → List InodeId
  | .mkdir s _ _ parent _ | .mknod s _ _ _ parent _ | .unlink s parent _ | .rmdir s parent _ =>
      if s.caseInsensitive then [s.resolve parent] else []
  | .symlink s _ _ parent _ path =>
      if s.caseInsensitive then s.resolve parent :: md.targetDirs s path else []
  | .link s _ _ parentDst _ => if s.caseInsensitive then [s.resolve parentDst] else []
  | .rename s _ parentSrc _ parentDst _ =>
      if s.caseInsensitive then [s.resolve parentSrc, s.resolve parentDst] else []
  | .undel .. | .setFile .. => []

/-- No directory is renamed into itself. -/
def RenamesElsewhere (md : Metadata) : Call → Prop
  | .rename s _ parentSrc nameSrc parentDst _ => NotIntoItself md s parentSrc nameSrc parentDst
  | _ => True

/-- The calls that keep the tree: no directory is renamed into itself, and directories whose
names differ by case only stay with case-sensitive sessions. -/
def Proper (md : Metadata) (call : Call) : Prop :=
  md.RenamesElsewhere call ∧ ∀ d ∈ md.switched call, md.Distinct d

/-- The call is proper for the state in which it is made. -/
def ProperRun : Option Metadata → Call → Prop
  | some md, call => md.Proper call
  | none, _ => True

instance (md : Metadata) (s : Session) (parentSrc : InodeId) (nameSrc : Name)
    (parentDst : InodeId) : Decidable (NotIntoItself md s parentSrc nameSrc parentDst) :=
  inferInstanceAs (Decidable (∀ e ∈ md.entries (s.resolve parentSrc),
    s.matchesName e.1 nameSrc = true → e.2 ≠ s.resolve parentDst))

instance decidableRenamesElsewhere (md : Metadata) :
    (call : Call) → Decidable (md.RenamesElsewhere call)
  | .rename s _ parentSrc nameSrc parentDst _ =>
      inferInstanceAs (Decidable (NotIntoItself md s parentSrc nameSrc parentDst))
  | .mkdir .. | .mknod .. | .symlink .. | .link .. | .unlink .. | .rmdir .. | .undel ..
  | .setFile .. => isTrue trivial

instance (md : Metadata) (call : Call) : Decidable (md.Proper call) :=
  inferInstanceAs (Decidable (md.RenamesElsewhere call ∧ ∀ d ∈ md.switched call, md.Distinct d))

instance decidableProperRun : (md : Option Metadata) → (call : Call) →
    Decidable (ProperRun md call)
  | some md, call => inferInstanceAs (Decidable (md.Proper call))
  | none, _ => isTrue trivial

theorem sound_empty : Sound empty := by
  have node : ∀ id, empty.node id = if id = specialInodeRoot then some newRoot else none := by
    intro id
    by_cases eq : id = specialInodeRoot
    · rw [eq]
      exact Finmap.lookup_singleton_eq
    · rw [if_neg eq]
      exact Finmap.lookup_eq_none.mpr (by simpa [empty] using eq)
  have parents : ∀ id, empty.parents id = [] := by
    intro id
    rw [Metadata.parents, node]
    split <;> rfl
  have entries : ∀ id, empty.entries id = [] := by
    intro id
    rw [Metadata.entries, node]
    split <;> rfl
  have directory : ∀ id, empty.IsDirectory id ↔ id = specialInodeRoot := by
    intro id
    rw [IsDirectory, type?, node]
    by_cases eq : id = specialInodeRoot <;> simp [newRoot]
  have live : ∀ id kind, empty.type? id = some kind → kind = .directory := by
    intro id kind is
    rw [type?, node] at is
    split at is
    · exact (Option.some.inj is).symm
    · cases is
  refine ⟨⟨?_, ?_, ?_, ?_, ?_, ?_, ?_, ?_⟩, (directory _).mpr rfl, parents _, ?_, ?_⟩
  · simp [parents, entries]
  · simp [entries]
  · simp [entries]
  · simp [parents]
  · simp [entries]
  · intro p d there
    rw [node] at there
    split at there
    · cases there
      exact ⟨fun _ => rfl, fun yes => absurd yes (by simp [newRoot]),
        fun yes => absurd yes (by simp [newRoot])⟩
    · cases there
  · exact fun c _ => parents c
  · intro c trash
    cases live c _ trash
  · intro d isDir notRoot
    exact absurd ((directory d).mp isDir) notRoot
  · refine ⟨?_, fun d p step => ?_, fun d isDir => ?_⟩
    · simp [parentOf, parents]
    · simp [parentOf, parents] at step
    · rw [(directory d).mp isDir]
      exact ⟨_, .root⟩

variable {md : Metadata}

/-- One proper call. -/
theorem Sound.operation (h : Sound md) (call : Call) (proper : md.Proper call) :
    KeepsSound call.operation md := by
  obtain ⟨elsewhere, distinct⟩ := proper
  cases call with
  | mkdir => exact h.mkdir fun ci => distinct _ (by simp [switched, ci])
  | mknod => exact h.mknod fun ci => distinct _ (by simp [switched, ci])
  | symlink =>
    exact h.symlink (fun ci => distinct _ (by simp [switched, ci]))
      fun ci d on => distinct d (by simp [switched, ci, on])
  | link => exact h.hardLink fun ci => distinct _ (by simp [switched, ci])
  | unlink => exact h.unlink_op fun ci => distinct _ (by simp [switched, ci])
  | rmdir => exact h.rmdir fun ci => distinct _ (by simp [switched, ci])
  | rename =>
    exact h.rename elsewhere (fun ci => distinct _ (by simp [switched, ci]))
      fun ci => distinct _ (by simp [switched, ci])
  | undel s place choices inode => exact h.undel s place choices inode
  | setFile inode trashtime sessionIds =>
    refine Ends.modify ?_
    have eq : SameEdges md (md.modify inode fun n =>
        { n with trashtime := trashtime, sessionIds := sessionIds }) :=
      ⟨fun c => type?_modify fun _ => rfl, fun c => parents_modify fun _ => rfl,
        fun c => entries_modify fun _ => rfl, trash_modify⟩
    refine h.of_sameEdges (h.coherent.of_same eq.parents eq.entries
      (fun p _ => eq.type p) ?_ ?_ ?_) eq
    · refine forall_modify h.coherent.folded fun d there => ?_
      have folded := h.coherent.folded inode d there
      exact ⟨folded.sensitive, folded.distinct, folded.lowered⟩
    · simpa only [eq.type] using h.coherent.detached
    · simpa only [eq.type, eq.trash] using h.coherent.trashed

theorem Sound.isTree (h : Sound md) : IsTree md := by
  refine ⟨fun d isDir => ?_, h.single, h.coherent.edges⟩
  obtain ⟨path, ascent⟩ := h.rooted.ascent d isDir
  exact ⟨path, ascent, ascent.nodup h.rooted.rootless⟩

/-- The state of a run: it is there, and it is sound. -/
def SoundRun (md : Option Metadata) : Prop :=
  ∃ md', md = some md' ∧ Sound md'

theorem soundRun_step (md : Option Metadata) (call : Call) (sound : SoundRun md)
    (proper : ProperRun md call) : SoundRun (stepRun md call) := by
  obtain ⟨md', rfl, h⟩ := sound
  obtain ⟨result, run, sound'⟩ := (h.operation call proper).exists_state
  exact ⟨result, run, sound'⟩

/-- After every run of proper calls from the empty file system, all of which return, the file
system is a tree. -/
theorem isTree_run (calls : List Call)
    (proper : StepSystem.Along stepRun ProperRun (some empty) calls) :
    ∃ md, StepSystem.run stepRun (some empty) calls = some md ∧ IsTree md := by
  obtain ⟨md, run, sound⟩ := StepSystem.invariant_run (P := SoundRun) soundRun_step
    ⟨empty, rfl, sound_empty⟩ proper
  exact ⟨md, run, sound.isTree⟩

/-- A session that may do everything. -/
def client (rootinode : InodeId) : Session where
  rootinode := rootinode
  readOnly := false
  caseInsensitive := false
  access := fun _ => true
  stickyAccess := fun _ _ => true
  checkQuota := none
  depletedSpace := false
  canMutateFileChunks := fun _ => none

/-- Two directories and a file with two names; a directory moves below the other one, the
file goes to the trash with its last name and comes back. -/
def movedAndRestored : List Call :=
  [.mkdir (client 1) 0 2 1 [97], .mkdir (client 1) 0 3 1 [98],
    .mknod (client 1) .file 0 4 2 [102], .link (client 1) 0 4 3 [103],
    .rename (client 1) 0 1 [97] 3 [99], .unlink (client 1) 3 [103],
    .unlink (client 1) 2 [102], .undel (client 0) 0 [] 4]

theorem isTree_movedAndRestored :
    ∃ md, StepSystem.run stepRun (some empty) movedAndRestored = some md ∧ IsTree md :=
  isTree_run movedAndRestored (by decide)

/-- A directory is renamed into itself. -/
def intoItself : List Call :=
  [.mkdir (client 1) 0 2 1 [100], .rename (client 1) 0 1 [100] 2 [120]]

/-- A directory holds `BAR` and `bar`, both names of files with another name there, and a
case-insensitive session removes the other name of the second file. -/
def hiddenName : List Call :=
  [.mknod (client 1) .file 9 4 1 [98, 97, 114], .link (client 1) 9 4 1 [102, 111, 111],
    .mknod (client 1) .file 9 5 1 [122], .link (client 1) 0 5 1 [66, 65, 82],
    .unlink { client 1 with caseInsensitive := true } 1 [102, 111, 111]]

/-- The statistics of a directory that is its own parent are updated for ever. -/
theorem addStats_of_self {d : InodeId} {name : Name}
    (notRoot : d ≠ specialInodeRoot) (self : md.parents d = [(d, name)]) (fuel : Nat) :
    md.addStats fuel d = none := by
  induction fuel with
  | zero => rfl
  | succ fuel ih =>
    rw [addStats, if_neg notRoot, self]
    simp [ih]

theorem not_isTree_of_self {d : InodeId} {name : Name} (isDir : md.IsDirectory d)
    (notRoot : d ≠ specialInodeRoot) (self : md.parents d = [(d, name)]) : ¬ IsTree md := by
  intro tree
  obtain ⟨path, ascent, nodup⟩ := tree.reachesRoot d isDir
  exact ascent.not_nodup_of_self notRoot (parentOf_of_single isDir self) nodup

/-- The first run leaves a directory outside of the tree, and the update of its statistics
does not end; the second one leaves an entry that the node does not know of. -/
theorem not_isTree_intoItself_hiddenName :
    (∃ md, StepSystem.run stepRun (some empty) intoItself = some md ∧ ¬ IsTree md ∧
      ∀ fuel, md.addStats fuel 2 = none) ∧
    ∃ md, StepSystem.run stepRun (some empty) hiddenName = some md ∧ ¬ IsTree md := by
  constructor
  · have result : (StepSystem.run stepRun (some empty) intoItself).map
        (fun md => (md.type? 2, md.parents 2)) = some (some .directory, [(2, [120])]) := by decide
    obtain ⟨md, run, fields⟩ := Option.map_eq_some_iff.mp result
    obtain ⟨directory, self⟩ := Prod.mk.inj fields
    exact ⟨md, run, not_isTree_of_self directory (by decide) self,
      addStats_of_self (by decide) self⟩
  · have result : (StepSystem.run stepRun (some empty) hiddenName).map
        (fun md => (md.parents 5, md.entries 1)) =
          some ([(1, [122])], [([66, 65, 82], 5), ([98, 97, 114], 4), ([102, 111, 111], 4)]) := by
      decide
    obtain ⟨md, run, fields⟩ := Option.map_eq_some_iff.mp result
    obtain ⟨parents, entries⟩ := Prod.mk.inj fields
    refine ⟨md, run, fun tree => ?_⟩
    have edge := (tree.edges 5 1 [66, 65, 82]).mpr (by rw [entries]; simp)
    rw [parents] at edge
    simp at edge

end Metadata

end LeilFS.Nodes
