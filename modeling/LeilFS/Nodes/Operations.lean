/-
Module: LeilFS.Nodes.Operations
Purpose: The operations of the master that make, move and remove nodes, for the session
  of a client.
Trusted boundary: none
-/
import LeilFS.Lib.Command
import LeilFS.Nodes.Tree

namespace LeilFS.Nodes

open Command (check report get update require modify expect)

/-- The errors that the operations answer with. -/
inductive Status where
  | erofs | enoent | eperm | enotdir | eacces | eexist | einval | enotempty | quota
  | nospace | cantCreatePath | chunkLocked
deriving Repr, DecidableEq

/-- The session of a client on the master [SPEC fs_context.h:149-256], with the
verdicts of the checks that look at other data: permissions, the sticky bit, quotas, free
space, and the state of the chunks of a file. -/
structure Session where
  rootinode : InodeId
  readOnly : Bool
  caseInsensitive : Bool
  access : InodeId → Bool
  stickyAccess : InodeId → InodeId → Bool
  checkQuota : Option Status
  depletedSpace : Bool
  canMutateFileChunks : InodeId → Option Status

inductive SessionType where
  | notMeta | onlyMeta | any
deriving Repr, DecidableEq

inductive ExpectedNodeType where
  | directory | notDirectory | any
deriving Repr, DecidableEq

/-- The node that the session means by an inode number: its own root has the number of the
root. -/
def Session.resolve (s : Session) (inode : InodeId) : InodeId :=
  if s.rootinode ≠ specialInodeRoot ∧ s.rootinode ≠ 0 ∧ inode = specialInodeRoot then
    s.rootinode
  else inode

/-- [SPEC filesystem_node.cc:2627-2646] for operations that write. -/
def verifySession (s : Session) (type : SessionType) : Option Status :=
  if s.readOnly then some .erofs
  else if s.rootinode = 0 ∧ type = .notMeta then some .enoent
  else if s.rootinode ≠ 0 ∧ type = .onlyMeta then some .eperm
  else none

/-- `kMaxFileNameLength` -/
def maxFileNameLength : Nat := 255

/-- [SPEC filesystem_node.cc:2536-2549] -/
def nameCheck (name : Name) : Bool :=
  name ≠ [] && name.length ≤ maxFileNameLength && name ≠ [46] && name ≠ [46, 46] &&
    name.all fun b => b ≠ 0 && b ≠ 47

theorem ne_nil_of_nameCheck {name : Name} (h : nameCheck name = true) : name ≠ [] := by
  rintro rfl
  cases h

namespace Metadata

/-- The file is in the trash or was removed while it was open. -/
def isDetached (md : Metadata) (id : InodeId) : Bool :=
  md.type? id = some .trash || md.type? id = some .reserved

/-- The node is a file, whatever has become of its links. -/
def isFile (md : Metadata) (id : InodeId) : Bool :=
  md.type? id = some .file || md.isDetached id

/-- [SPEC filesystem_node.cc:336-346] -/
def isAncestorOrNodeReservedOrTrash (md : Metadata) (ancestor node : InodeId) : Option Bool :=
  if md.isDetached node then some true else md.isAncestor ancestor node

/-- The name under which an operation looks for an entry
[SPEC filesystem_operations.cc:2106-2109, 2295-2303]. -/
def baseName (md : Metadata) (dir : InodeId) (name : Name) : Name :=
  if md.folds dir ∧ md.getBaseStoredChildName dir name ≠ [] then
    md.getBaseStoredChildName dir name
  else name

end Metadata

/-- What an operation on the metadata returns. -/
abbrev Operation := Command Metadata Status

/-- The node that a session asks for [SPEC filesystem_node.cc:2661-2705]. -/
def getCandidate (s : Session) (inode : InodeId) : Operation InodeId := do
  let md ← get
  if s.rootinode = specialInodeRoot ∨ s.rootinode = 0 then do
    check (md.node inode).isSome .enoent
    check (s.rootinode ≠ 0 || md.isDetached inode) .eperm
    pure inode
  else do
    check (md.IsDirectory s.rootinode) .enoent
    if inode = specialInodeRoot ∨ inode = s.rootinode then pure s.rootinode
    else do
      check (md.node inode).isSome .enoent
      let below ← require (md.isAncestorOrNodeReservedOrTrash s.rootinode inode)
      check below .eperm
      pure inode

/-- The check of the node's type [SPEC filesystem_node.cc:2707-2732]. -/
def ExpectedNodeType.verify (expected : ExpectedNodeType) (isDirectory : Bool) : Option Status :=
  match expected with
  | .directory => if isDirectory then none else some .enotdir
  | .notDirectory => if isDirectory then some .eperm else none
  | .any => none

/-- [SPEC filesystem_node.cc:2654-2756] A directory takes over the session's way of
comparing names. -/
def getNodeForOperation (s : Session) (expected : ExpectedNodeType) (inode : InodeId) :
    Operation InodeId := do
  let id ← getCandidate s inode
  let md ← get
  report (expected.verify (md.IsDirectory id))
  check (s.access id) .eacces
  modify fun md =>
    if md.IsDirectory id then md.modify id (FSNode.useCase s.caseInsensitive) else md
  pure id

/-- The new node of `mkdir`, `mknod` and `symlink`; `place` is where the new handle sorts,
and `choice` the number that the pool would like to hand out. -/
def create (place : Place) (choice parent : InodeId) (name : Name) (type : FSNodeType) :
    Operation Unit :=
  update fun md => (md.createNode place choice parent name type).map Prod.snd

/-- [SPEC filesystem_operations.cc:1979-2040] -/
def mkdir (s : Session) (place : Place) (choice parent : InodeId) (name : Name) :
    Operation Unit := do
  report (verifySession s .notMeta)
  let workDir ← getNodeForOperation s .directory parent
  check (nameCheck name) .einval
  let md ← get
  check (!md.isNameUsed workDir name) .eexist
  report s.checkQuota
  check (!s.depletedSpace) .nospace
  modify fun md =>
    md.modify workDir fun n => { n with caseInsensitive := s.caseInsensitive }
  create place choice workDir name .directory

/-- The types that `mknod` makes. -/
def mknodTypes : List FSNodeType :=
  [.file, .socket, .fifo, .blockDev, .charDev]

/-- [SPEC filesystem_operations.cc:1903-1977] -/
def mknod (s : Session) (type : FSNodeType) (place : Place) (choice parent : InodeId)
    (name : Name) : Operation Unit := do
  report (verifySession s .notMeta)
  check (mknodTypes.contains type) .einval
  let parentNode ← getNodeForOperation s .directory parent
  check (nameCheck name) .einval
  let md ← get
  check (!md.isNameUsed parentNode name) .eexist
  report s.checkQuota
  modify fun md =>
    md.modify parentNode fun n => { n with caseInsensitive := s.caseInsensitive }
  create place choice parentNode name type

/-- The components of a path. -/
def components (path : Name) : List Name :=
  path.splitOn 47

/-- The walk of `getCanonicalPath`: the stored names along the path, none if the path does
not lead to a node; the directories on the way take over the session's way of comparing
names. -/
def canonicalLoop (s : Session) : InodeId → List Name → Name → Metadata → Option Name × Metadata
  | _, [], result, md => (some result, md)
  | current, name :: rest, result, md =>
      if name = [] then canonicalLoop s current rest result md
      else if ¬ md.IsDirectory current then (none, md)
      else
        let md' := md.modify current (FSNode.useCase s.caseInsensitive)
        let base := if s.caseInsensitive then md'.getBaseStoredChildName current name else name
        if s.caseInsensitive ∧ base = [] then (none, md')
        else
          match md'.lookup current base with
          | none => (none, md')
          | some child =>
              canonicalLoop s child rest (if result = [] then base else result ++ 47 :: base) md'

/-- [SPEC filesystem_operations.cc:1362-1411] -/
def getCanonicalPath (s : Session) (path : Name) (md : Metadata) : Option Name × Metadata :=
  if md.IsDirectory s.rootinode then canonicalLoop s s.rootinode (components path) [] md
  else (none, md)

/-- The target of a symbolic link, with stored names where case does not count. -/
def symlinkTarget (s : Session) (workDir : InodeId) (path : Name) : Operation Name :=
  fun md =>
    if md.folds workDir then
      some (.ok ((getCanonicalPath s path md).1.getD path), (getCanonicalPath s path md).2)
    else some (.ok path, md)

/-- [SPEC filesystem_operations.cc:1807-1900] -/
def symlink (s : Session) (place : Place) (choice parent : InodeId) (name path : Name) :
    Operation Unit := do
  report (verifySession s .notMeta)
  let workDir ← getNodeForOperation s .directory parent
  let basePath ← symlinkTarget s workDir path
  check (basePath ≠ []) .einval
  check (basePath.all (· ≠ 0)) .einval
  check (nameCheck name) .einval
  let md ← get
  check (!md.isNameUsed workDir name) .eexist
  report s.checkQuota
  create place choice workDir name .symlink

/-- [SPEC filesystem_operations.cc:2411-2467] The operation `link`. -/
def hardLink (s : Session) (place : Place) (inodeSrc parentDst : InodeId) (nameDst : Name) :
    Operation Unit := do
  report (verifySession s .notMeta)
  let destinationDir ← getNodeForOperation s .directory parentDst
  let source ← getNodeForOperation s .notDirectory inodeSrc
  let md ← get
  check (!md.isDetached source) .enoent
  check (nameCheck nameDst) .einval
  check (!md.isNameUsed destinationDir nameDst) .eexist
  update (Metadata.link place destinationDir source nameDst)

/-- [SPEC filesystem_operations.cc:2088-2141] -/
def unlink (s : Session) (parent : InodeId) (name : Name) : Operation Unit := do
  report (verifySession s .notMeta)
  let workDir ← getNodeForOperation s .directory parent
  let md ← get
  check (nameCheck (md.baseName workDir name)) .einval
  let child ← expect (md.lookup workDir (md.baseName workDir name)) .enoent
  check (s.stickyAccess workDir child) .eperm
  check (¬ md.IsDirectory child) .eperm
  report (if md.isFile child then s.canMutateFileChunks child else none)
  update (Metadata.unlink workDir (md.baseName workDir name) child)

/-- [SPEC filesystem_operations.cc:2174-2220] -/
def rmdir (s : Session) (parent : InodeId) (name : Name) : Operation Unit := do
  report (verifySession s .notMeta)
  let workDir ← getNodeForOperation s .directory parent
  check (nameCheck name) .einval
  let md ← get
  let child ← expect (md.lookup workDir name) .enoent
  check (s.stickyAccess workDir child) .eperm
  check (md.IsDirectory child) .enotdir
  check (md.entries child = []) .enotempty
  update (Metadata.unlink workDir name child)

/-- The checks of `rename` on a node that has the new name. -/
def checkReplaced (s : Session) (md : Metadata) (destDir : InodeId) :
    Option InodeId → Operation Unit
  | none => pure ()
  | some replaced => do
      check (¬ md.IsDirectory replaced ∨ md.entries replaced = []) .enotempty
      check (s.stickyAccess destDir replaced) .eperm

/-- The node that has the new name goes. -/
def removeReplaced (s : Session) (md : Metadata) (destDir : InodeId) (name : Name) :
    Option InodeId → Operation Unit
  | none => pure ()
  | some replaced => do
      report (if md.isFile replaced then s.canMutateFileChunks replaced else none)
      update (Metadata.unlink destDir name replaced)

/-- The changes of `rename`, after its checks on the source. -/
def moveNode (s : Session) (place : Place) (sourceDir source destDir : InodeId)
    (nameSrc nameDst : Name) : Operation Unit := do
  let md ← get
  checkReplaced s md destDir (md.lookup destDir nameDst)
  report s.checkQuota
  removeReplaced s md destDir nameDst (md.lookup destDir nameDst)
  update (Metadata.removeEdge sourceDir nameSrc source)
  update (Metadata.link place destDir source nameDst)

/-- [SPEC filesystem_operations.cc:2262-2409] -/
def rename (s : Session) (place : Place) (parentSrc : InodeId) (nameSrc : Name)
    (parentDst : InodeId) (nameDst : Name) : Operation Unit := do
  report (verifySession s .any)
  let destDir ← getNodeForOperation s .directory parentDst
  let sourceDir ← getNodeForOperation s .directory parentSrc
  let md ← get
  check (nameCheck (md.baseName sourceDir nameSrc)) .einval
  let source ← expect (md.lookup sourceDir (md.baseName sourceDir nameSrc)) .enoent
  check (s.stickyAccess sourceDir source) .eperm
  let below ← require
    (if md.IsDirectory source then md.isAncestor source destDir else some false)
  check (!below) .einval
  check (nameCheck (md.baseName destDir nameDst)) .einval
  if md.lookup destDir (md.baseName destDir nameDst) = some source then pure ()
  else
    moveNode s place sourceDir source destDir (md.baseName sourceDir nameSrc)
      (md.baseName destDir nameDst)

/-! ## Files back from the trash -/

/-- [SPEC filesystem_node.cc:1813-1815] -/
def isDotOnlySegment (segmentLength dotCount : Nat) : Bool :=
  0 < segmentLength && segmentLength = dotCount && segmentLength ≤ 2

/-- The loop of `validateTrashPath` over the bytes of the path. -/
def validSegments : Nat → Nat → Name → Bool
  | partLength, dots, [] => partLength ≠ 0 && !isDotOnlySegment partLength dots
  | partLength, dots, b :: rest =>
      if b = 0 then false
      else if b = 47 then
        partLength ≠ 0 && !isDotOnlySegment partLength dots && validSegments 0 0 rest
      else
        partLength + 1 ≤ maxFileNameLength &&
          validSegments (partLength + 1) (if b = 46 then dots + 1 else dots) rest

/-- [SPEC filesystem_node.cc:1819-1852] -/
def validateTrashPath (path : Name) : Bool :=
  validSegments 0 0 (path.dropWhile (· = 47))

/-- The end of `undel`: the file leaves the trash and gets its link. -/
def restore (place : Place) (file parent : InodeId) (name : Name) (md : Metadata) :
    Option Metadata :=
  Metadata.link place parent file name
    { md.modify file (fun n => { n with type := .file }) with trash := md.trash.erase file }

/-- The loop of `undel` over the path [SPEC filesystem_node.cc:2063-2129]: it follows
the directories that exist and makes the missing ones. -/
def undelAlong (place : Place) (file : InodeId) :
    List InodeId → Bool → InodeId → List Name → Operation Unit
  | _, _, _, [] => require none
  | _, _, parent, [name] => do
      let md ← get
      check (!md.isNameUsed parent name) .eexist
      update (restore place file parent name)
  | choices, isNew, parent, name :: next :: rest => do
      let md ← get
      match (if isNew then none else md.lookup parent name) with
      | some child => do
          check (md.IsDirectory child) .cantCreatePath
          undelAlong place file choices false child (next :: rest)
      | none => do
          let (id, md') ← require
            (md.createNode place (choices.headD 0) parent name .directory)
          modify fun _ => md'
          undelAlong place file choices.tail true id (next :: rest)

/-- [SPEC filesystem_operations.cc:866-910, filesystem_node.cc:2035-2061] -/
def undel (s : Session) (place : Place) (choices : List InodeId) (inode : InodeId) :
    Operation Unit := do
  report (verifySession s .onlyMeta)
  let file ← getNodeForOperation s .any inode
  let md ← get
  check (md.type? file = some .trash) .enoent
  report (s.canMutateFileChunks file)
  let path ← require (md.trash.lookup file)
  check (validateTrashPath path) .cantCreatePath
  undelAlong place file choices false specialInodeRoot (components (path.dropWhile (· = 47)))

end LeilFS.Nodes
