/-
Module: LeilFS.Nodes.Tree
Purpose: The directories form a tree; the walks towards the root end, and making,
  moving and removing nodes keep the tree.
Trusted boundary: none
-/
import LeilFS.Lib.Forest
import LeilFS.Nodes.Edges

namespace LeilFS.Nodes

open Option List Metadata

namespace Metadata

/-!
Walks towards the root follow the parents of directories.  A walk that has not ended
after as many steps as there are nodes visits a node again and never ends: the models
return `none` then.
-/

/-- The most directories that a walk can visit without coming back to one. -/
def walkBound (md : Metadata) : Nat :=
  md.nodes.keys.card + 1

/-- The inner loop of `isAncestor`. -/
def climbsTo (md : Metadata) (ancestor : InodeId) : Nat → InodeId → Option Bool
  | 0, _ => none
  | fuel + 1, dirNode =>
      if md.node dirNode = none then none
      else if ancestor = dirNode then some true
      else
        match md.parents dirNode with
        | [] => some false
        | [(up, _)] => md.climbsTo ancestor fuel up
        | _ => none

/-- The outer loop of `isAncestor`. -/
def climbsToFrom (md : Metadata) (ancestor : InodeId) : List (InodeId × Name) → Option Bool
  | [] => some false
  | (up, _) :: rest =>
      match md.climbsTo ancestor md.walkBound up with
      | none => none
      | some true => some true
      | some false => md.climbsToFrom ancestor rest

/-- [SPEC filesystem_node.cc:315-334] -/
def isAncestor (md : Metadata) (ancestor node : InodeId) : Option Bool :=
  md.climbsToFrom ancestor (md.parents node)

/-- The walk of `getPathSize` and `getPathData`; `47` is the slash. -/
def pathLoop (md : Metadata) : Nat → InodeId → Name → Option Name
  | 0, _, _ => none
  | fuel + 1, parent, path =>
      if parent = specialInodeRoot ∨ md.parents parent = [] then some path
      else
        match md.parents parent with
        | [(up, _)] => md.pathLoop fuel up (md.getChildName up parent ++ 47 :: path)
        | _ => none

/-- `FSNode::kEdgeNameMaxSize` -/
def edgeNameMaxSize : Nat := 65535

/-- [SPEC filesystem_node.cc:1029-1099] A path that is too long loses its
beginning. -/
def getPath (md : Metadata) (parent child : InodeId) : Option Name :=
  (md.pathLoop md.walkBound parent (md.getChildName parent child)).map fun path =>
    path.drop (path.length - edgeNameMaxSize)

/-- [SPEC filesystem_node.cc:568-588] The directories whose statistics an update
changes. -/
def addStats (md : Metadata) : Nat → InodeId → Option (List InodeId)
  | 0, _ => none
  | fuel + 1, dir =>
      if dir = specialInodeRoot then some [dir]
      else ((md.parents dir).mapM fun edge => md.addStats fuel edge.1).map fun visited =>
        dir :: visited.flatten

/-- `kDefaultTrashTime` -/
def defaultTrashTime : Nat := 94620

/-- [SPEC filesystem_freenode.cc:28-41] The pool of inode numbers hands out one that
no node has; which one is up to the pool. -/
def getNextId (md : Metadata) (choice : InodeId) : InodeId :=
  if choice ≠ 0 ∧ choice ∉ md.nodes.keys then choice else md.nodes.keys.sup id + 1

/-- A node as `createNodeWithIdInternal` fills it. -/
def newNode (parent : FSNode) (type : FSNodeType) : FSNode where
  type := type
  parents := []
  trashtime :=
    if type = .directory ∨ type = .file then parent.trashtime else defaultTrashTime
  sessionIds := []
  entries := []
  lowerCaseEntries := []
  caseInsensitive := false

/-- [SPEC filesystem_node.cc:931-1017] -/
def createNode (place : Place) (choice parent : InodeId) (name : Name) (type : FSNodeType)
    (md : Metadata) : Option (InodeId × Metadata) :=
  (md.node parent).bind fun parentNode =>
    ((md.addNode (md.getNextId choice) (newNode parentNode type)).link place parent
      (md.getNextId choice) name).map fun md' => (md.getNextId choice, md')

/-- The path that a file is kept under when its last link goes. -/
def detachedPath (md : Metadata) (parent child : InodeId) : Option Name :=
  (md.node child).bind fun n =>
    if n.parents.length = 1 ∧ n.type = .file ∧ (0 < n.trashtime ∨ n.sessionIds ≠ []) then
      md.getPath parent child
    else some []

/-- What becomes of a node without links: it goes to the trash, stays for the sessions
that have it open, or is removed. -/
def dispose (md : Metadata) (child : InodeId) (path : Name) : Metadata :=
  match md.node child with
  | none => md
  | some n =>
      if n.type = .file ∧ 0 < n.trashtime then
        { md.modify child (fun n => { n with type := .trash }) with
          trash := md.trash.insert child path }
      else if n.type = .file ∧ n.sessionIds ≠ [] then
        { md.modify child (fun n => { n with type := .reserved }) with
          reserved := md.reserved.insert child path }
      else md.eraseNode child

/-- [SPEC filesystem_node.cc:1923-1974] -/
def unlink (parent : InodeId) (childName : Name) (child : InodeId) (md : Metadata) :
    Option Metadata :=
  (md.detachedPath parent child).bind fun path =>
    (md.removeEdge parent childName child).map fun md' =>
      if md'.parents child = [] then md'.dispose child path else md'

/-! ## The tree -/

/-- Coherent edges whose directories form a tree. -/
structure Sound (md : Metadata) : Prop where
  coherent : Coherent md
  rootDirectory : md.IsDirectory specialInodeRoot
  rootParents : md.parents specialInodeRoot = []
  single : ∀ d, md.IsDirectory d → d ≠ specialInodeRoot → ∃ edge, md.parents d = [edge]
  rooted : Forest.Rooted md.IsDirectory md.parentOf specialInodeRoot

variable {md md' : Metadata} {dir child : InodeId} {name stored : Name}

theorem parentOf_eq_some {d p : InodeId} :
    md.parentOf d = some p ↔ md.IsDirectory d ∧ ∃ name, (md.parents d).head? = some (p, name) := by
  unfold parentOf
  by_cases isDir : md.IsDirectory d
  · rw [if_pos isDir, map_eq_some_iff]
    constructor
    · rintro ⟨⟨q, name⟩, head, rfl⟩
      exact ⟨isDir, name, head⟩
    · rintro ⟨-, name, head⟩
      exact ⟨(p, name), head, rfl⟩
  · simp [isDir]

variable {d : InodeId} {id : InodeId} {path : List InodeId} {src moved : InodeId}

theorem parentOf_of_single {edge : InodeId × Name} (isDir : md.IsDirectory d)
    (eq : md.parents d = [edge]) : md.parentOf d = some edge.1 :=
  parentOf_eq_some.mpr ⟨isDir, edge.2, by rw [eq]; rfl⟩

theorem parentOf_eq_none (other : ¬ md.IsDirectory d) : md.parentOf d = none := by
  rw [parentOf, if_neg other]

/-- The parent of a directory depends on its type and its parents. -/
theorem parentOf_congr (type : md'.type? d = md.type? d)
    (parents : md'.parents d = md.parents d) : md'.parentOf d = md.parentOf d := by
  refine ext fun p => ?_
  rw [parentOf_eq_some, parentOf_eq_some, IsDirectory, IsDirectory, type, parents]

theorem mem_keys_of_type? {type : FSNodeType} (h : md.type? d = some type) : d ∈ md.nodes.keys := by
  obtain ⟨n, there, -⟩ := map_eq_some_iff.mp h
  rw [Finmap.mem_keys, Finmap.mem_iff]
  exact ⟨n, there⟩

namespace Sound

section

variable (h : Sound md)
include h

/-- The way up from a directory ends within the bound. -/
theorem exists_ascent (directory : md.IsDirectory dir) :
    ∃ path, Forest.Ascent md.parentOf specialInodeRoot dir path ∧ path.length < md.walkBound := by
  obtain ⟨path, ascent⟩ := h.rooted.ascent dir directory
  refine ⟨path, ascent, Nat.lt_succ_of_le ?_⟩
  exact h.rooted.length_le ascent directory fun d isDir => mem_keys_of_type? isDir

/-- The directory of an entry is a directory on the way to the root. -/
theorem directory_of_parent {edge : InodeId × Name}
    (mem : edge ∈ md.parents child) : md.IsDirectory edge.1 :=
  h.coherent.ofDirectory edge.1 _ ((h.coherent.edges child edge.1 edge.2).mp mem)

/-- One step up: the directory has one parents entry, and it is about the next one. -/
theorem single_of_parentOf {d next : InodeId} (step : md.parentOf d = some next) :
    d ≠ specialInodeRoot ∧ md.IsDirectory next ∧ ∃ name, md.parents d = [(next, name)] := by
  obtain ⟨isDir, upDirectory⟩ := h.rooted.only d next step
  have notRoot : d ≠ specialInodeRoot := by
    rintro rfl
    rw [h.rooted.rootless] at step
    cases step
  obtain ⟨⟨up, name⟩, single⟩ := h.single d isDir notRoot
  have eq : up = next := by
    rw [parentOf_of_single isDir single] at step
    exact some.inj step
  exact ⟨notRoot, upDirectory, name, eq ▸ single⟩

theorem climbsTo_eq (ancestor : InodeId) {path : List InodeId}
    (ascent : Forest.Ascent md.parentOf specialInodeRoot dir path) :
    ∀ fuel, path.length ≤ fuel → md.IsDirectory dir →
      md.climbsTo ancestor fuel dir = some (decide (ancestor ∈ path)) := by
  induction ascent with
  | root =>
    intro fuel enough isDir
    obtain ⟨fuel, rfl⟩ := Nat.exists_eq_succ_of_ne_zero (n := fuel) (by simp at enough; omega)
    have ne : md.node specialInodeRoot ≠ none := fun absent =>
      isDir.there (by rw [type?, absent]; rfl)
    rw [climbsTo, if_neg ne, h.rootParents]
    by_cases eq : ancestor = specialInodeRoot
    · simp [eq]
    · simp [eq]
  | @up d next above step rest ih =>
    intro fuel enough isDir
    obtain ⟨fuel, rfl⟩ := Nat.exists_eq_succ_of_ne_zero (n := fuel) (by simp at enough; omega)
    have ne : md.node d ≠ none := fun absent => isDir.there (by rw [type?, absent]; rfl)
    obtain ⟨-, upDirectory, edgeName, single⟩ := h.single_of_parentOf step
    rw [climbsTo, if_neg ne, single]
    by_cases found : ancestor = d
    · simp [found]
    · rw [if_neg found]
      show md.climbsTo ancestor fuel next = _
      rw [ih fuel (by simpa using enough) upDirectory]
      simp [found]

/-- The outer loop of the ancestor check comes to an end. -/
theorem climbsToFrom_eq (ancestor : InodeId) (edges : List (InodeId × Name))
    (directories : ∀ edge ∈ edges, md.IsDirectory edge.1) :
    ∃ answer, md.climbsToFrom ancestor edges = some answer ∧
      (answer = false → ∀ edge ∈ edges, ∀ path,
        Forest.Ascent md.parentOf specialInodeRoot edge.1 path → ancestor ∉ path) := by
  induction edges with
  | nil => exact ⟨false, rfl, by simp⟩
  | cons edge edges ih =>
    obtain ⟨answer, rest, sound⟩ := ih fun e mem => directories e (mem_cons_of_mem _ mem)
    obtain ⟨path, ascent, short⟩ := h.exists_ascent (directories edge (mem_cons_self ..))
    have walked := h.climbsTo_eq ancestor ascent md.walkBound short.le
      (directories edge (mem_cons_self ..))
    by_cases found : ancestor ∈ path
    · refine ⟨true, ?_, by simp⟩
      rw [climbsToFrom, walked, decide_eq_true found]
    refine ⟨answer, ?_, fun no e mem path' ascent' => ?_⟩
    · rw [climbsToFrom, walked, decide_eq_false found]
      exact rest
    · rcases mem_cons.mp mem with rfl | later
      · rw [ascent'.unique h.rooted.rootless ascent]
        exact found
      · exact sound no e later path' ascent'

/-- The ancestor check answers, and when it denies, the way up from the directory does not
pass the other one, unless it starts there. -/
theorem isAncestor (ancestor : InodeId) (node : InodeId) :
    ∃ answer, md.isAncestor ancestor node = some answer ∧
      (answer = false → ancestor ≠ node → ancestor ≠ specialInodeRoot → md.IsDirectory node →
        ∃ path, Forest.Ascent md.parentOf specialInodeRoot node path ∧ ancestor ∉ path) := by
  obtain ⟨answer, walked, sound⟩ := h.climbsToFrom_eq ancestor (md.parents node)
    fun edge mem => h.directory_of_parent mem
  refine ⟨answer, walked, fun no ne notRoot isDir => ?_⟩
  obtain ⟨path, ascent⟩ := h.rooted.ascent node isDir
  refine ⟨path, ascent, ?_⟩
  cases ascent with
  | root => simpa using notRoot
  | @up _ next above step rest =>
    obtain ⟨-, edgeName, head⟩ := parentOf_eq_some.mp step
    have mem : (next, edgeName) ∈ md.parents node := mem_of_head? head
    have off := sound no (next, edgeName) mem above rest
    simp [ne, off]

theorem pathLoop_isSome {path : List InodeId}
    (ascent : Forest.Ascent md.parentOf specialInodeRoot dir path) :
    ∀ fuel sofar, path.length ≤ fuel → md.IsDirectory dir →
      ∃ result, md.pathLoop fuel dir sofar = some result := by
  induction ascent with
  | root =>
    intro fuel sofar enough _
    obtain ⟨fuel, rfl⟩ := Nat.exists_eq_succ_of_ne_zero (n := fuel) (by simp at enough; omega)
    exact ⟨sofar, by rw [pathLoop, if_pos (.inl rfl)]⟩
  | @up d next above step rest ih =>
    intro fuel sofar enough isDir
    obtain ⟨fuel, rfl⟩ := Nat.exists_eq_succ_of_ne_zero (n := fuel) (by simp at enough; omega)
    obtain ⟨notRoot, upDirectory, edgeName, single⟩ := h.single_of_parentOf step
    obtain ⟨result, walked⟩ := ih fuel (md.getChildName next d ++ 47 :: sofar)
      (by simpa using enough) upDirectory
    refine ⟨result, ?_⟩
    rw [pathLoop, if_neg (by simp [notRoot, single]), single]
    exact walked

/-- The path of a node in a directory. -/
theorem getPath_isSome (isDir : md.IsDirectory dir) (child : InodeId) :
    ∃ path, md.getPath dir child = some path := by
  obtain ⟨path, ascent, short⟩ := h.exists_ascent isDir
  obtain ⟨result, walked⟩ := h.pathLoop_isSome ascent md.walkBound (md.getChildName dir child)
    short.le isDir
  exact ⟨_, by rw [getPath, walked]; rfl⟩

/-- The same directories with the same parents make the same tree. -/
theorem of_sameDirectories (inv : Coherent md')
    (directories : ∀ d, md'.IsDirectory d ↔ md.IsDirectory d)
    (parents : ∀ d, md.IsDirectory d → md'.parents d = md.parents d) : Sound md' := by
  refine ⟨inv, (directories _).mpr h.rootDirectory, ?_, ?_, ?_⟩
  · rw [parents _ h.rootDirectory]
    exact h.rootParents
  · intro d isDir notRoot
    rw [directories] at isDir
    rw [parents d isDir]
    exact h.single d isDir notRoot
  · refine h.rooted.congr directories fun d => ?_
    by_cases isDir : md.IsDirectory d
    · have type : md'.type? d = md.type? d := ((directories d).mpr isDir).trans isDir.symm
      exact parentOf_congr type (parents d isDir)
    · rw [parentOf_eq_none isDir, parentOf_eq_none (mt (directories d).mp isDir)]

theorem of_sameEdges (inv : Coherent md') (eq : SameEdges md md') : Sound md' :=
  h.of_sameDirectories inv (fun d => by rw [IsDirectory, eq.type]; rfl)
    fun d _ => eq.parents d

end

end Sound

/-! ## New nodes -/

theorem node_getNextId (md : Metadata) (choice : InodeId) :
    md.node (md.getNextId choice) = none := by
  have absent : md.getNextId choice ∉ md.nodes.keys := by
    unfold getNextId
    by_cases free : choice ≠ 0 ∧ choice ∉ md.nodes.keys
    · rw [if_pos free]
      exact free.2
    · rw [if_neg free]
      intro mem
      exact absurd (Finset.le_sup (f := id) mem) (Nat.not_succ_le_self _)
  by_contra there
  obtain ⟨n, there⟩ := ne_none_iff_exists'.mp there
  exact absent (Finmap.mem_keys.mpr (Finmap.mem_iff.mpr ⟨n, there⟩))

/-- A node without edges joins. -/
theorem Coherent.addNode (h : Coherent md) {n : FSNode}
    (new : md.node id = none) (noParents : n.parents = []) (noEntries : n.entries = [])
    (folded : n.Folded) (kind : n.type ≠ .trash) : Coherent (md.addNode id n) := by
  have parents : ∀ c, (md.addNode id n).parents c = md.parents c := by
    intro c
    unfold Metadata.parents
    rw [node_addNode]
    by_cases eq : c = id
    · rw [if_pos eq, eq, new]
      exact noParents
    · rw [if_neg eq]
  have entries : ∀ c, (md.addNode id n).entries c = md.entries c := by
    intro c
    unfold Metadata.entries
    rw [node_addNode]
    by_cases eq : c = id
    · rw [if_pos eq, eq, new]
      exact noEntries
    · rw [if_neg eq]
  have type : ∀ c, c ≠ id → (md.addNode id n).type? c = md.type? c := by
    intro c other
    unfold type?
    rw [node_addNode, if_neg other]
  have newType : (md.addNode id n).type? id = some n.type := by
    rw [type?, node_addNode, if_pos rfl]
    rfl
  refine h.of_same parents entries (fun p some => type p ?_) ?_ (fun c kind => ?_)
    (fun c trash => ?_)
  · rintro rfl
    rw [Metadata.entries, new] at some
    exact some rfl
  · intro p d there
    rw [node_addNode] at there
    by_cases eq : p = id
    · rw [if_pos eq] at there
      cases there
      exact folded
    · rw [if_neg eq] at there
      exact h.folded p d there
  · by_cases eq : c = id
    · rw [eq, Metadata.parents, new]
      rfl
    · rw [type c eq] at kind
      exact h.detached c kind
  · by_cases eq : c = id
    · rw [eq, newType] at trash
      exact absurd (some.inj trash) kind
    · rw [type c eq] at trash
      exact h.trashed c trash

theorem Sound.root_ne_of_absent (h : Sound md) (absent : md.type? id = none) :
    specialInodeRoot ≠ id := by
  rintro rfl
  exact h.rootDirectory.there absent

/-- A new node below a directory keeps the tree. -/
theorem Sound.of_newNode (h : Sound md) (inv : Coherent md') (absent : md.type? id = none)
    (edge : md'.parents id = [(dir, name)]) (directory : md.IsDirectory dir)
    (types : ∀ c, c ≠ id → md'.type? c = md.type? c)
    (parents : ∀ c, c ≠ id → md'.parents c = md.parents c) : Sound md' := by
  have rootNotId := h.root_ne_of_absent absent
  have prev : ¬ md.IsDirectory id := by
    rw [IsDirectory, absent]
    simp
  have others : ∀ d, d ≠ id → md'.parentOf d = md.parentOf d := fun d other =>
    parentOf_congr (types d other) (parents d other)
  refine ⟨inv, ?_, ?_, ?_, ?_⟩
  · rw [IsDirectory, types _ rootNotId]
    exact h.rootDirectory
  · rw [parents _ rootNotId]
    exact h.rootParents
  · intro d isDir notRoot
    by_cases eq : d = id
    · exact ⟨(dir, name), eq ▸ edge⟩
    · rw [IsDirectory, types d eq] at isDir
      rw [parents d eq]
      exact h.single d isDir notRoot
  · by_cases isDir : md'.IsDirectory id
    · refine h.rooted.addLeaf prev directory rootNotId.symm (fun d => ?_)
        (parentOf_of_single isDir edge) others
      by_cases eq : d = id
      · simp [eq, isDir]
      · rw [IsDirectory, types d eq]
        simp [eq, IsDirectory]
    · refine h.rooted.congr (fun d => ?_) fun d => ?_
      · by_cases eq : d = id
        · rw [eq]
          exact ⟨fun yes => absurd yes isDir, fun yes => absurd yes prev⟩
        · rw [IsDirectory, types d eq]
          rfl
      · by_cases eq : d = id
        · rw [eq, parentOf_eq_none isDir, parentOf_eq_none prev]
        · exact others d eq

/-- What a new node with its link changes. -/
structure Created (md md' : Metadata) (id : InodeId) (type : FSNodeType) : Prop where
  absent : md.type? id = none
  type : md'.type? id = some type
  entries : md'.entries id = []
  others : ∀ c, c ≠ id → md'.type? c = md.type? c
  trash : md'.trash = md.trash

/-- A node of any kind but trash and reserved gets its number and its first link. -/
theorem Sound.createNode (h : Sound md) (place : Place) (choice : InodeId) {type : FSNodeType}
    (live : type ≠ .trash) (notReserved : type ≠ .reserved) (isDir : md.IsDirectory dir)
    (ne : name ≠ []) (fresh : Fresh md dir name) :
    ∃ id md', md.createNode place choice dir name type = some (id, md') ∧ Sound md' ∧
      Created md md' id type := by
  obtain ⟨parentNode, parentThere, -⟩ := map_eq_some_iff.mp isDir
  set id := md.getNextId choice with id_eq
  set n := newNode parentNode type with n_eq
  have new : md.node id = none := md.node_getNextId choice
  have absent : md.type? id = none := by rw [type?, new]; rfl
  have folded : n.Folded :=
    ⟨fun _ => rfl, fun yes => absurd yes (by simp [n_eq, newNode]),
      fun yes => absurd yes (by simp [n_eq, newNode])⟩
  have inv : Coherent (md.addNode id n) := h.coherent.addNode new rfl rfl folded live
  have sameNode : ∀ c, c ≠ id → (md.addNode id n).node c = md.node c := fun c other => by
    rw [node_addNode, if_neg other]
  have typed : (md.addNode id n).type? id = some type := by
    rw [type?, node_addNode, if_pos rfl]
    rfl
  have dirNotId : dir ≠ id := fun eq => isDir.there (eq ▸ absent)
  have isDir' : (md.addNode id n).IsDirectory dir := by
    rw [IsDirectory, type?, sameNode dir dirNotId]
    exact isDir
  have fresh' : Fresh (md.addNode id n) dir name := by
    refine ⟨?_, fun folds => ?_⟩
    · rw [entries, sameNode dir dirNotId]
      exact fresh.plain
    · rw [Metadata.folds, sameNode dir dirNotId] at folds
      rw [entries, sameNode dir dirNotId]
      exact fresh.folded folds
  obtain ⟨md', linkedTo, inv', linked⟩ := inv.link place isDir'
    (by rw [typed]; simp) (by simpa [typed] using live) (by simpa [typed] using notReserved)
    ne fresh'
  have types : ∀ c, c ≠ id → md'.type? c = md.type? c := by
    intro c other
    rw [linked.type, type?, sameNode c other]
    rfl
  have parents : ∀ c, c ≠ id → md'.parents c = md.parents c := by
    intro c other
    rw [linked.parents, if_neg other, Metadata.parents, sameNode c other]
    rfl
  have edge : md'.parents id = [(dir, name)] := by
    rw [linked.parents, if_pos rfl, Metadata.parents, node_addNode, if_pos rfl]
    rfl
  have typed' : md'.type? id = some type := (linked.type id).trans typed
  refine ⟨id, md', ?_, h.of_newNode inv' absent edge isDir types parents,
    absent, typed', ?_, types, ?_⟩
  · rw [Metadata.createNode, parentThere, bind_some, linkedTo]
    rfl
  · rw [eq_nil_iff_forall_not_mem]
    intro e mem
    rcases (linked.entries id e).mp mem with old | ⟨eq, -⟩
    · rw [entries, node_addNode, if_pos rfl] at old
      cases old
    · exact dirNotId eq.symm
  · rw [linked.trash]
    rfl

/-! ## Moved nodes -/

/-- An entry leads to another node than the root. -/
theorem Sound.entry_ne_root (h : Sound md) (mem : (stored, child) ∈ md.entries dir) :
    child ≠ specialInodeRoot := by
  rintro rfl
  have edge := (h.coherent.edges specialInodeRoot dir stored).mpr mem
  rw [h.rootParents] at edge
  cases edge

/-- A directory with one new edge in place of its old one, below a directory whose way up
does not pass it; a node that is no directory may have changed its edges. -/
theorem Sound.of_moved (h : Sound md) (inv : Coherent md') {moved above : InodeId}
    (types : ∀ c, md'.type? c = md.type? c)
    (parents : ∀ c, c ≠ moved → md'.parents c = md.parents c)
    (edge : md.IsDirectory moved → md'.parents moved = [(above, name)])
    (target : md.IsDirectory above) (ascent : Forest.Ascent md.parentOf specialInodeRoot above path)
    (off : moved ∉ path) (notRoot : moved ≠ specialInodeRoot) : Sound md' := by
  have sameDirectory : ∀ d, md'.IsDirectory d ↔ md.IsDirectory d := fun d => by
    rw [IsDirectory, types]
    rfl
  by_cases isDir : md.IsDirectory moved
  · refine ⟨inv, (sameDirectory _).mpr h.rootDirectory, ?_, ?_, ?_⟩
    · rw [parents _ notRoot.symm]
      exact h.rootParents
    · intro d directory notRootD
      rw [sameDirectory] at directory
      by_cases eq : d = moved
      · subst eq
        exact ⟨_, edge isDir⟩
      · rw [parents d eq]
        exact h.single d directory notRootD
    · exact h.rooted.move isDir target notRoot ascent off sameDirectory
        (parentOf_of_single ((sameDirectory _).mpr isDir) (edge isDir))
        fun d other => parentOf_congr (types d) (parents d other)
  · refine h.of_sameDirectories inv sameDirectory fun d directory => parents d ?_
    rintro rfl
    exact isDir directory

/-- A name that is new stays new when an edge goes. -/
theorem Fresh.of_removed (h : Fresh md dir name)
    (gone : Removed md md' src stored moved) : Fresh md' dir name := by
  have fewer : ∀ e, e ∈ md'.entries dir → e ∈ md.entries dir := by
    intro e mem
    rw [gone.entries] at mem
    by_cases eq : dir = src
    · rw [if_pos eq] at mem
      rw [eq]
      exact mem_of_mem_erase mem
    · rwa [if_neg eq] at mem
  refine ⟨fun used => ?_, fun folds used => ?_⟩
  · obtain ⟨e, mem, eq⟩ := mem_map.mp used
    exact h.plain (mem_map.mpr ⟨e, fewer e mem, eq⟩)
  · obtain ⟨e, mem, eq⟩ := mem_map.mp used
    exact h.folded (gone.folds dir ▸ folds) (mem_map.mpr ⟨e, fewer e mem, eq⟩)

/-- A node leaves one directory for another one. -/
theorem Sound.move (h : Sound md) (place : Place) {nameSrc : Name}
    (resolved : Resolved md src nameSrc stored moved) (target : md.IsDirectory dir)
    (ne : name ≠ []) (fresh : Fresh md dir name)
    (ascent : Forest.Ascent md.parentOf specialInodeRoot dir path) (off : moved ∉ path) :
    ∃ cut md', md.removeEdge src nameSrc moved = some cut ∧
      cut.link place dir moved name = some md' ∧ Sound md' := by
  obtain ⟨cut, removedTo, inv, gone⟩ := h.coherent.removeEdge resolved
  obtain ⟨there, live, notReserved⟩ := h.coherent.child_live resolved.entry
  have target' : cut.IsDirectory dir := by
    rw [IsDirectory, gone.type]
    exact target
  obtain ⟨md', linkedTo, inv', linked⟩ := inv.link place target'
    (by rwa [gone.type]) (by rwa [gone.type]) (by rwa [gone.type]) ne
    (fresh.of_removed gone)
  have notRoot := h.entry_ne_root resolved.entry
  have edge : md.IsDirectory moved → md'.parents moved = [(dir, name)] := by
    intro isDir
    obtain ⟨old, single⟩ := h.single moved isDir notRoot
    have mem := (h.coherent.edges moved src stored).mpr resolved.entry
    rw [single, mem_singleton] at mem
    rw [linked.parents, if_pos rfl, gone.parents, if_pos rfl, single, ← mem, erase_cons_head]
    rfl
  refine ⟨cut, md', removedTo, linkedTo, h.of_moved inv'
    (fun c => (linked.type c).trans (gone.type c)) (fun c other => ?_) edge
    target ascent off notRoot⟩
  rw [linked.parents, if_neg other, gone.parents, if_neg other]

/-! ## Removed nodes -/

/-- No directory has its entries below a node without entries. -/
theorem Coherent.childless (h : Coherent md) (empty : md.entries child = []) (d : InodeId) :
    md.parentOf d ≠ some child := by
  intro below
  obtain ⟨-, name, head⟩ := parentOf_eq_some.mp below
  have mem := (h.edges d child name).mp (mem_of_head? head)
  rw [empty] at mem
  cases mem

/-- A node without entries that is no directory afterwards; all others are as before. -/
theorem Sound.of_gone (h : Sound md) (inv : Coherent md') (empty : md.entries child = [])
    (notRoot : child ≠ specialInodeRoot) (gone : ¬ md'.IsDirectory child)
    (types : ∀ c, c ≠ child → md'.type? c = md.type? c)
    (parents : ∀ c, c ≠ child → md'.parents c = md.parents c) : Sound md' := by
  have others : ∀ d, d ≠ child → md'.parentOf d = md.parentOf d := fun d ne =>
    parentOf_congr (types d ne) (parents d ne)
  refine ⟨inv, ?_, ?_, ?_, ?_⟩
  · rw [IsDirectory, types _ notRoot.symm]
    exact h.rootDirectory
  · rw [parents _ notRoot.symm]
    exact h.rootParents
  · intro d isDir notRootD
    have ne : d ≠ child := by
      rintro rfl
      exact gone isDir
    rw [IsDirectory, types d ne] at isDir
    rw [parents d ne]
    exact h.single d isDir notRootD
  · refine h.rooted.removeLeaf (h.coherent.childless empty) notRoot (fun d => ?_)
      (parentOf_eq_none gone) others
    by_cases eq : d = child
    · simp [eq, gone]
    · rw [IsDirectory, types d eq]
      simp [eq, IsDirectory]

/-- What becomes of a node without links changes no other node. -/
theorem node_dispose (path : Name) {c : InodeId} (ne : c ≠ child) :
    (md.dispose child path).node c = md.node c := by
  have kept : ∀ f, (md.modify child f).node c = md.node c := fun f => by
    rw [node_modify, if_neg ne]
  unfold dispose
  split
  · rfl
  split
  · exact kept _
  · split
    · exact kept _
    · rw [node_eraseNode, if_neg ne]

/-- A node that has lost its links is in the trash or reserved, or there is none. -/
theorem dispose_cases (md : Metadata) (child : InodeId) (path : Name) :
    (∃ n kind, md.node child = some n ∧
      (md.dispose child path).node child = some { n with type := kind } ∧
      (kind = .trash ∧ (md.dispose child path).trash = md.trash.insert child path ∨
        kind = .reserved ∧ (md.dispose child path).trash = md.trash)) ∨
    (md.dispose child path).node child = none ∧ (md.dispose child path).trash = md.trash := by
  unfold dispose
  split
  next absent => exact .inr ⟨absent, rfl⟩
  next n there =>
    have changed : ∀ f, (md.modify child f).node child = some (f n) := fun f => by
      rw [node_modify, if_pos rfl, there]
      rfl
    split
    · exact .inl ⟨n, .trash, there, changed _, .inl ⟨rfl, rfl⟩⟩
    · split
      · exact .inl ⟨n, .reserved, there, changed _, .inr ⟨rfl, trash_modify⟩⟩
      · exact .inr ⟨by rw [node_eraseNode, if_pos rfl], rfl⟩

theorem not_isDirectory_dispose (md : Metadata) (child : InodeId) (path : Name) :
    ¬ (md.dispose child path).IsDirectory child := by
  rw [IsDirectory, type?]
  rcases md.dispose_cases child path with ⟨n, kind, -, is, ⟨rfl, -⟩ | ⟨rfl, -⟩⟩ | ⟨is, -⟩
  · rw [is]
    simp
  · rw [is]
    simp
  · rw [is]
    simp

theorem Coherent.dispose (h : Coherent md) (path : Name) (noParents : md.parents child = [])
    (noEntries : md.entries child = []) : Coherent (md.dispose child path) := by
  have cases' := md.dispose_cases child path
  have parents : ∀ c, (md.dispose child path).parents c = md.parents c := by
    intro c
    by_cases eq : c = child
    · subst eq
      rw [noParents, parents]
      rcases cases' with ⟨n, kind, there, is, -⟩ | ⟨is, -⟩
      · rw [parents, there] at noParents
        rw [is]
        exact noParents
      · rw [is]
        rfl
    · rw [parents, node_dispose path eq]
      rfl
  have entries : ∀ c, (md.dispose child path).entries c = md.entries c := by
    intro c
    by_cases eq : c = child
    · subst eq
      rw [noEntries, entries]
      rcases cases' with ⟨n, kind, there, is, -⟩ | ⟨is, -⟩
      · rw [entries, there] at noEntries
        rw [is]
        exact noEntries
      · rw [is]
        rfl
    · rw [entries, node_dispose path eq]
      rfl
  have type : ∀ c, c ≠ child → (md.dispose child path).type? c = md.type? c := fun c other => by
    rw [type?, node_dispose path other]
    rfl
  have trash : ∀ c, c ∈ md.trash → c ∈ (md.dispose child path).trash := by
    intro c mem
    rcases cases' with ⟨n, kind, -, -, ⟨-, is⟩ | ⟨-, is⟩⟩ | ⟨-, is⟩
    · rw [is]
      exact Finmap.mem_insert.mpr (.inr mem)
    · rwa [is]
    · rwa [is]
  refine h.of_same parents entries (fun p some => type p ?_) ?_ (fun c kind => ?_)
    (fun c kind => ?_)
  · rintro rfl
    exact some noEntries
  · intro p d there
    by_cases eq : p = child
    · subst eq
      rcases cases' with ⟨n, kind, old, is, -⟩ | ⟨is, -⟩
      · rw [is] at there
        cases there
        have folded := h.folded p n old
        exact ⟨folded.sensitive, folded.distinct, folded.lowered⟩
      · rw [is] at there
        cases there
    · rw [node_dispose path eq] at there
      exact h.folded p d there
  · by_cases eq : c = child
    · rw [eq, noParents]
    · rw [type c eq] at kind
      exact h.detached c kind
  · by_cases eq : c = child
    · subst eq
      rw [type?] at kind
      rcases cases' with ⟨n, k, -, is, ⟨-, trashed⟩ | ⟨rfl, -⟩⟩ | ⟨is, -⟩
      · rw [trashed]
        exact Finmap.mem_insert.mpr (.inl rfl)
      · rw [is] at kind
        cases kind
      · rw [is] at kind
        cases kind
    · rw [type c eq] at kind
      exact trash c (h.trashed c kind)

/-- What the removal of a link changes for all nodes but the one that loses it. -/
structure Unlinked (md md' : Metadata) (dir : InodeId) (stored : Name) (child : InodeId) :
    Prop where
  type : ∀ c, c ≠ child → md'.type? c = md.type? c
  parents : ∀ c, c ≠ child → md'.parents c = md.parents c
  entries : ∀ p, p ≠ child → md'.entries p =
    if p = dir then (md.entries dir).erase (stored, child) else md.entries p
  folds : ∀ p, p ≠ child → md'.folds p = md.folds p

theorem Sound.detachedPath_isSome (h : Sound md) (isDir : md.IsDirectory dir)
    (ne : md.type? child ≠ none) : ∃ path, md.detachedPath dir child = some path := by
  cases node : md.node child with
  | none => rw [type?, node] at ne; exact absurd rfl ne
  | some n =>
    rw [detachedPath, node, bind_some]
    split
    · exact h.getPath_isSome isDir child
    · exact ⟨[], rfl⟩

/-- A link to a node without entries goes, and with the last link the node. -/
theorem Sound.unlink (h : Sound md) (resolved : Resolved md dir name stored child)
    (empty : md.entries child = []) :
    ∃ md', md.unlink dir name child = some md' ∧ Sound md' ∧ Unlinked md md' dir stored child := by
  have directory : md.IsDirectory dir := h.coherent.ofDirectory dir _ resolved.entry
  have notRoot := h.entry_ne_root resolved.entry
  obtain ⟨there, -⟩ := h.coherent.child_live resolved.entry
  obtain ⟨path, detached⟩ := h.detachedPath_isSome directory there
  obtain ⟨cut, removedTo, inv, gone⟩ := h.coherent.removeEdge resolved
  have dirNotChild : dir ≠ child := by
    rintro rfl
    have mem := resolved.entry
    rw [empty] at mem
    cases mem
  have cutEmpty : cut.entries child = [] := by
    rw [gone.entries, if_neg dirNotChild.symm]
    exact empty
  have cutParents : ∀ c, c ≠ child → cut.parents c = md.parents c := fun c other => by
    rw [gone.parents, if_neg other]
  have run : md.unlink dir name child =
      some (if cut.parents child = [] then cut.dispose child path else cut) := by
    rw [Metadata.unlink, detached, removedTo]
    rfl
  by_cases last : cut.parents child = []
  · rw [if_pos last] at run
    have types : ∀ c, c ≠ child → (cut.dispose child path).type? c = md.type? c :=
      fun c other => by rw [← gone.type, type?, node_dispose path other]; rfl
    have parents : ∀ c, c ≠ child → (cut.dispose child path).parents c = md.parents c :=
      fun c other => by rw [← cutParents c other, Metadata.parents, node_dispose path other]; rfl
    refine ⟨_, run, ?_, types, parents, fun p other => ?_, fun p other => ?_⟩
    · exact h.of_gone (inv.dispose path last cutEmpty) empty notRoot
        (not_isDirectory_dispose cut child path) types parents
    · rw [← gone.entries, Metadata.entries, node_dispose path other]
      rfl
    · rw [← gone.folds, Metadata.folds, node_dispose path other]
      rfl
  · rw [if_neg last] at run
    have notDirectory : ¬ cut.IsDirectory child := by
      rw [IsDirectory, gone.type]
      intro isDir
      obtain ⟨edge, single⟩ := h.single child isDir notRoot
      have mem := (h.coherent.edges child dir stored).mpr resolved.entry
      rw [single, mem_singleton] at mem
      refine last ?_
      rw [gone.parents, if_pos rfl, single, ← mem]
      exact erase_cons_head _ _
    refine ⟨_, run, ?_, fun c _ => gone.type c, cutParents, fun p _ => gone.entries p,
      fun p _ => gone.folds p⟩
    exact h.of_gone inv empty notRoot notDirectory (fun c _ => gone.type c) cutParents

/-- The ways up from other directories do not change. -/
theorem Sound.ascent_unlinked (h : Sound md) (unlinked : Unlinked md md' dir stored child)
    (empty : md.entries child = []) (ne : d ≠ child)
    (ascent : Forest.Ascent md.parentOf specialInodeRoot d path) :
    Forest.Ascent md'.parentOf specialInodeRoot d path :=
  h.rooted.ascent_removeLeaf (h.coherent.childless empty)
    (fun e off => parentOf_congr (unlinked.type e off) (unlinked.parents e off)) ne ascent

/-- The name of the removed link is new. -/
theorem Coherent.fresh_unlinked (h : Coherent md) (resolved : Resolved md dir name stored child)
    (unlinked : Unlinked md md' dir stored child) (ne : dir ≠ child) : Fresh md' dir name := by
  have entries : md'.entries dir = (md.entries dir).erase (stored, child) := by
    rw [unlinked.entries dir ne, if_pos rfl]
  have nodup : (md.entries dir).Nodup := (h.namesNodup dir).of_map _
  have folded : md'.folds dir = true →
      toLowerCase name ∉ (md'.entries dir).map fun e => toLowerCase e.1 := by
    intro folds used
    rw [unlinked.folds dir ne] at folds
    obtain ⟨e, mem, eq⟩ := mem_map.mp used
    rw [entries, nodup.mem_erase_iff] at mem
    obtain ⟨d, there, sameEntries, sameFolds⟩ := node_of_mem_entries resolved.entry
    have distinct := (h.folded dir d there).distinct (sameFolds.symm.trans folds)
    rw [sameEntries] at mem
    exact mem.1 (inj_on_of_nodup_map distinct mem.2 (sameEntries ▸ resolved.entry)
      (eq.trans (resolved.folded folds).symm))
  refine ⟨fun used => ?_, folded⟩
  cases folds : md.folds dir with
  | true =>
    obtain ⟨e, mem, eq⟩ := mem_map.mp used
    exact folded ((unlinked.folds dir ne).trans folds) (mem_map.mpr ⟨e, mem, by rw [eq]⟩)
  | false =>
    obtain ⟨e, mem, eq⟩ := mem_map.mp used
    rw [entries, nodup.mem_erase_iff] at mem
    exact mem.1 (inj_on_of_nodup_map (h.namesNodup dir) mem.2 resolved.entry
      (eq.trans (resolved.exact folds).symm))

/-- A name that leads to another node still leads there. -/
theorem Resolved.of_unlinked {nameSrc storedSrc : Name}
    (resolved : Resolved md src nameSrc storedSrc moved)
    (unlinked : Unlinked md md' dir stored child) (otherDir : src ≠ child)
    (otherNode : moved ≠ child) : Resolved md' src nameSrc storedSrc moved := by
  have folds := unlinked.folds src otherDir
  have first : md'.firstEntryIn src moved = md.firstEntryIn src moved := by
    rw [firstEntryIn, firstEntryIn, unlinked.parents moved otherNode]
  refine ⟨?_, fun no => resolved.exact (folds ▸ no), fun yes => resolved.folded (folds ▸ yes),
    fun yes => first.trans (resolved.first (folds ▸ yes))⟩
  rw [unlinked.entries src otherDir]
  by_cases same : src = dir
  · rw [if_pos same, mem_erase_of_ne (fun eq => otherNode (congrArg Prod.snd eq)), ← same]
    exact resolved.entry
  · rw [if_neg same]
    exact resolved.entry

end Metadata

end LeilFS.Nodes
