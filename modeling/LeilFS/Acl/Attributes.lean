/-
Module: LeilFS.Acl.Attributes
Purpose: The attributes of nodes with their access control lists, the operation that sets
  attributes, and its replay from the log.
Trusted boundary: none
-/
import LeilFS.Acl.RichAcl
import LeilFS.Nodes.Node

namespace LeilFS.Acl

open LeilFS.Nodes (InodeId FSNodeType)

/-! ## Nodes with attributes -/

/-- [SPEC filesystem_node_types.h:118-186] -/
structure NodeAttributes where
  type : FSNodeType
  mode : Mode
  uid : UInt32
  gid : UInt32
  atime : UInt32
  mtime : UInt32
  ctime : UInt32
deriving Repr, DecidableEq

def NodeAttributes.isDir (node : NodeAttributes) : Bool := node.type = .directory

/-- The attributes of the nodes, and the access control lists that are stored for them. -/
@[ext] structure Inodes where
  node : InodeId → Option NodeAttributes
  acl : InodeId → Option RichACL

/-- Why an operation is refused. -/
inductive Refusal where
  | erofs | enoent | eperm | eacces | einval | enotsup
deriving Repr, DecidableEq

/-- Who asks, and when [SPEC fs_context.h:149-256].  `getNode` is the verdict of the
session on an inode: the node that it means, if the session may change it. -/
structure Context where
  ts : UInt32
  uid : UInt32
  groups : List UInt32
  ignoreGid : Bool
  mapAll : Bool
  noMasterPermCheck : Bool
  getNode : InodeId → Except Refusal InodeId

/-- `EATTR_NOOWNER << EATTR_BIT_OFFSET` -/
def noOwner : Mode := 0x1000

namespace Inodes

def setNode (s : Inodes) (id : InodeId) (node : NodeAttributes) : Inodes :=
  { s with node := Function.update s.node id (some node) }

/-- [SPEC acl_storage.cc:55-60, 62-78] -/
def setAcl (s : Inodes) (id : InodeId) (acl : Option RichACL) : Inodes :=
  { s with acl := Function.update s.acl id acl }

/-- The list of a node gets the node's mode
[SPEC filesystem_node.cc:2446-2449, acl_storage.cc:82-93]. -/
def syncAclWithMode (s : Inodes) (id : InodeId) (node : NodeAttributes) : Inodes :=
  s.setAcl id ((s.acl id).map fun acl => acl.setMode node.mode node.isDir)

/-- [SPEC filesystem_node.cc:2562-2608] -/
def access (s : Inodes) (context : Context) (id : InodeId) (node : NodeAttributes)
    (modeMask : Mode) : Bool :=
  if context.noMasterPermCheck ∨ context.uid = 0 then true
  else
    match s.acl id with
    | some acl =>
        acl.checkPermission (convertMode2Mask modeMask &&& ~~~Mask.directoryOnly node.isDir)
          node.uid node.gid context.uid context.groups
    | none =>
        let nodeMode :=
          if context.uid = node.uid ∨ node.mode &&& noOwner ≠ 0 then node.mode >>> 6
          else if context.ignoreGid then node.mode >>> 3 ||| node.mode
          else if node.gid ∈ context.groups then node.mode >>> 3
          else node.mode
        nodeMode &&& 7 &&& modeMask = modeMask

end Inodes

/-! ## Setting attributes -/

/-- [SPEC SFSCommunication.h:227-234] -/
inductive SugidClearMode where
  | never | always | osx | bsd | ext | sfs
deriving Repr, DecidableEq

/-- The arguments of `setAttr`. -/
structure SetAttr where
  setmask : BitVec 8
  mode : Mode
  uid : UInt32
  gid : UInt32
  atime : UInt32
  mtime : UInt32
  sugidClearMode : SugidClearMode
deriving Repr, DecidableEq

namespace SetAttr

def setModeFlag : BitVec 8 := 0x02

def setUidFlag : BitVec 8 := 0x04

def setGidFlag : BitVec 8 := 0x08

def setMtimeNowFlag : BitVec 8 := 0x10

def setMtimeFlag : BitVec 8 := 0x20

def setAtimeFlag : BitVec 8 := 0x40

def setAtimeNowFlag : BitVec 8 := 0x80

def has (args : SetAttr) (flags : BitVec 8) : Bool := args.setmask &&& flags ≠ 0

/-- [SPEC filesystem_operations.cc:1574-1602] -/
def refusal (args : SetAttr) (context : Context) (node : NodeAttributes) (writable : Bool) :
    Option Refusal :=
  let chown := args.has (setUidFlag ||| setGidFlag)
  if context.uid ≠ 0 ∧ context.mapAll ∧ chown then some .eperm
  else if node.mode &&& noOwner = 0 ∧ context.uid ≠ 0 ∧ context.uid ≠ node.uid ∧
      (args.has (setModeFlag ||| setUidFlag ||| setGidFlag) ∨
        (args.has setAtimeFlag ∧ ¬ args.has setAtimeNowFlag) ∨
        (args.has setMtimeFlag ∧ ¬ args.has setMtimeNowFlag)) then some .eperm
  else if node.mode &&& noOwner = 0 ∧ context.uid ≠ 0 ∧ context.uid ≠ node.uid ∧
      args.has (setAtimeNowFlag ||| setMtimeNowFlag) ∧ ¬ writable then some .eacces
  else if context.uid ≠ 0 ∧ context.uid ≠ args.uid ∧ args.has setUidFlag then some .eperm
  else if context.ignoreGid = false ∧ context.uid ≠ 0 ∧ args.has setGidFlag ∧
      args.gid ∉ context.groups then some .eperm
  else none

/-- What becomes of the set-id bits of a node and of the mode that it is given, when the owner
changes [SPEC filesystem_operations.cc:1609-1655]. -/
def clearSugid (args : SetAttr) (context : Context) (node : NodeAttributes) (attrmode : Mode) :
    Mode × Mode :=
  let both : Mode × Mode := (node.mode &&& 0o171777, attrmode &&& 0o1777)
  let suidOnly : Mode × Mode := (node.mode &&& 0o173777, attrmode &&& 0o3777)
  let kept : Mode × Mode := (node.mode, attrmode)
  let unlessDirectory : Mode × Mode := if node.mode &&& 0o10 ≠ 0 then both else suidOnly
  if node.mode &&& 0o6000 ≠ 0 ∧ args.has (setUidFlag ||| setGidFlag) then
    match args.sugidClearMode with
    | .never => kept
    | .always => both
    | .osx => if context.uid ≠ 0 then both else kept
    | .bsd =>
        if context.uid ≠ 0 ∧ args.has setGidFlag ∧ node.gid ≠ args.gid then both else kept
    | .ext => if node.isDir then kept else unlessDirectory
    | .sfs =>
        if node.isDir then if context.uid ≠ 0 then both else kept else unlessDirectory
  else kept

/-- The mode of the node afterwards [SPEC filesystem_operations.cc:1603-1659]. -/
def newMode (args : SetAttr) (context : Context) (node : NodeAttributes) : Mode :=
  -- a change of the owner together with the mode keeps the set-id bits for the rules below
  let attrmode :=
    if args.has (setUidFlag ||| setGidFlag) ∧ args.has setModeFlag then
      args.mode ||| (node.mode &&& 0o6000)
    else args.mode
  let (nodeMode, attrmode) := args.clearSugid context node attrmode
  if args.has setModeFlag then attrmode &&& 0o7777 ||| nodeMode &&& 0xF000 else nodeMode

/-- The node afterwards [SPEC filesystem_operations.cc:1656-1690]. -/
def newNode (args : SetAttr) (context : Context) (node : NodeAttributes) : NodeAttributes :=
  { node with
    mode := args.newMode context node
    uid := if args.has setUidFlag then args.uid else node.uid
    gid := if args.has setGidFlag then args.gid else node.gid
    atime :=
      if args.has setAtimeNowFlag then context.ts
      else if args.has setAtimeFlag then args.atime else node.atime
    mtime :=
      if args.has setMtimeNowFlag then context.ts
      else if args.has setMtimeFlag then args.mtime else node.mtime
    ctime := context.ts }

end SetAttr

/-- The line `ATTR(inode,mode,uid,gid,atime,mtime)` of the log, with its time. -/
structure AttrLine where
  timestamp : UInt32
  inode : InodeId
  mode : Mode
  uid : UInt32
  gid : UInt32
  atime : UInt32
  mtime : UInt32
deriving Repr, DecidableEq

namespace Inodes

/-- [SPEC filesystem_operations.cc:1551-1702] The nodes afterwards, and the line that is
logged. -/
def setAttr (s : Inodes) (context : Context) (inode : InodeId) (args : SetAttr) :
    Except Refusal (Inodes × AttrLine) := do
  let id ← context.getNode inode
  let some node := s.node id | throw .enoent
  match args.refusal context node (s.access context id node 2) with
  | some refusal => throw refusal
  | none =>
      let new := args.newNode context node
      let synced := if args.has SetAttr.setModeFlag then s.syncAclWithMode id new else s
      return (synced.setNode id new,
        ⟨context.ts, id, new.mode &&& 0o7777, new.uid, new.gid, new.atime, new.mtime⟩)

/-- [SPEC filesystem_operations.cc:1705-1734] -/
def applyAttr (s : Inodes) (line : AttrLine) : Except Refusal Inodes := do
  let some node := s.node line.inode | throw .enoent
  if 0o7777 < line.mode then throw .einval
  else
    let new := { node with
      mode := line.mode ||| (node.mode &&& 0xF000)
      uid := line.uid
      gid := line.gid
      atime := line.atime
      mtime := line.mtime
      ctime := line.timestamp }
    return (s.syncAclWithMode line.inode new).setNode line.inode new

end Inodes

/-! ## What the modes have in common -/

namespace SetAttr

variable (args : SetAttr) (context : Context) (node : NodeAttributes)

/-- The set-id bits are cleared, or one of them, or none. -/
theorem clearSugid_cases (attrmode : Mode) :
    args.clearSugid context node attrmode = (node.mode &&& 0o171777, attrmode &&& 0o1777) ∨
      args.clearSugid context node attrmode = (node.mode &&& 0o173777, attrmode &&& 0o3777) ∨
      args.clearSugid context node attrmode = (node.mode, attrmode) := by
  unfold clearSugid
  extract_lets both suidOnly kept unlessDirectory
  have eitherWay : unlessDirectory = both ∨ unlessDirectory = suidOnly := by
    unfold unlessDirectory
    split
    · exact .inl rfl
    · exact .inr rfl
  have cleared : unlessDirectory = both ∨ unlessDirectory = suidOnly ∨ unlessDirectory = kept := by
    tauto
  split
  · cases args.sugidClearMode with
    | never => exact .inr (.inr rfl)
    | always => exact .inl rfl
    | osx =>
      dsimp only
      split
      · exact .inl rfl
      · exact .inr (.inr rfl)
    | bsd =>
      dsimp only
      split
      · exact .inl rfl
      · exact .inr (.inr rfl)
    | ext =>
      dsimp only
      split
      · exact .inr (.inr rfl)
      · exact cleared
    | sfs =>
      dsimp only
      split
      · split
        · exact .inl rfl
        · exact .inr (.inr rfl)
      · exact cleared
  · exact .inr (.inr rfl)

/-- The extra attributes stay, so that the logged bits are enough to find the mode again. -/
theorem logged_newMode :
    args.newMode context node &&& 0o7777 ||| node.mode &&& 0xF000 = args.newMode context node := by
  unfold newMode
  extract_lets attrmode
  rcases clearSugid_cases args context node attrmode with eq | eq | eq <;>
    rw [eq] <;> dsimp only <;> split <;> ext i inside <;> interval_cases i <;> simp

/-- Without a mode, only the set-id bits can change. -/
theorem newMode_permissions (keepsMode : args.has setModeFlag = false) :
    args.newMode context node &&& 0o777 = node.mode &&& 0o777 := by
  unfold newMode
  extract_lets attrmode
  rcases clearSugid_cases args context node attrmode with eq | eq | eq <;>
    rw [eq] <;> simp only [keepsMode, Bool.false_eq_true] <;> ext i inside <;>
    interval_cases i <;> simp

end SetAttr

/-! ## Replay -/

namespace Inodes

variable {s s' : Inodes} {context : Context} {inode id : InodeId} {args : SetAttr}
  {node : NodeAttributes} {line : AttrLine}

/-- What an accepted call does. -/
theorem setAttr_eq_ok (found : context.getNode inode = .ok id) (eq : s.node id = some node)
    (ok : s.setAttr context inode args = .ok (s', line)) :
    let new := args.newNode context node
    s' = (if args.has SetAttr.setModeFlag then s.syncAclWithMode id new else s).setNode id new ∧
      line = ⟨context.ts, id, new.mode &&& 0o7777, new.uid, new.gid, new.atime, new.mtime⟩ := by
  unfold setAttr at ok
  rw [found] at ok
  simp only [bind, Except.bind, eq] at ok
  split at ok
  · cases ok
  · cases ok
    exact ⟨rfl, rfl⟩

/-- The replay finds the node of the master again, and always writes its mode into the list. -/
theorem applyAttr_logged (eq : s.node id = some node) :
    let new := args.newNode context node
    s.applyAttr ⟨context.ts, id, new.mode &&& 0o7777, new.uid, new.gid, new.atime, new.mtime⟩ =
      .ok ((s.syncAclWithMode id new).setNode id new) := by
  intro new
  have small : ¬ (0o7777 : Mode) < new.mode &&& 0o7777 := by
    rw [BitVec.lt_def]
    exact Nat.not_lt.mpr Nat.and_le_right
  have mode : new.mode &&& 0o7777 ||| node.mode &&& 0xF000 = new.mode :=
    args.logged_newMode context node
  unfold applyAttr
  simp only [eq, small, mode]
  rfl

/-- The list has the mode already. -/
theorem syncAclWithMode_eq_self_iff {new : NodeAttributes} : s.syncAclWithMode id new = s ↔
      ∀ acl, s.acl id = some acl → acl.setMode new.mode new.isDir = acl := by
  unfold syncAclWithMode setAcl
  constructor
  · intro eq acl stored
    have here := congrFun (congrArg Inodes.acl eq) id
    simpa [stored] using here
  · intro synced
    ext1
    · rfl
    · refine Function.update_eq_self_iff.mpr ?_
      cases stored : s.acl id with
      | none => rfl
      | some acl => simp [synced acl stored]

theorem setNode_inj {t : Inodes} {new : NodeAttributes} (sameNodes : s.node = t.node) :
    s.setNode id new = t.setNode id new ↔ s = t := by
  constructor
  · intro eq
    ext1
    · exact sameNodes
    · have here := congrArg Inodes.acl eq
      exact here
  · rintro rfl
    rfl

/-- The replay of an accepted call agrees with it exactly when the call sets the mode, or the
node has no list, or its list has the masks of the mode and lets them decide. -/
theorem replay_attr_iff (found : context.getNode inode = .ok id) (known : s.node id = some node)
    (accepted : s.setAttr context inode args = .ok (s', line)) :
    s.applyAttr line = .ok s' ↔
      args.has SetAttr.setModeFlag = true ∨
        ∀ acl, s.acl id = some acl → acl.setMode node.mode node.isDir = acl := by
  obtain ⟨rfl, rfl⟩ := setAttr_eq_ok found known accepted
  rw [applyAttr_logged known, Except.ok.injEq]
  cases setsMode : args.has SetAttr.setModeFlag with
  | true => simp
  | false =>
    have sameMode : ∀ acl : RichACL,
        acl.setMode (args.newMode context node) node.isDir = acl.setMode node.mode node.isDir :=
      fun acl => acl.setMode_congr node.isDir (args.newMode_permissions context node setsMode)
    simp only [Bool.false_eq_true, if_false, false_or]
    have sameNodes : (s.syncAclWithMode id (args.newNode context node)).node = s.node := rfl
    rw [setNode_inj sameNodes, syncAclWithMode_eq_self_iff]
    simp only [← sameMode]
    rfl

/-! ### A file with a list -/

/-- A file of user 1000, whose list lets user 2000 read; neither the flag for masks nor the
one that lets the masks decide is set. -/
def sharedFile : Inodes where
  node := fun inode => if inode = 5 then some ⟨.file, 0o600, 1000, 100, 10, 20, 30⟩ else none
  acl := fun inode =>
    if inode = 5 then
      some
        { ownerMask := convertMode2Mask 6 &&& ~~~Mask.kDeleteChild
          groupMask := 0
          otherMask := 0
          flags := 0
          aceList :=
            [Ace.make Ace.kAccessAllowedAceType Ace.kSpecialWho 0x7 Ace.kOwnerSpecialId,
              Ace.make Ace.kAccessAllowedAceType 0 0x1 2000] }
    else none

def fileOwner : Context where
  ts := 40
  uid := 1000
  groups := [100]
  ignoreGid := false
  mapAll := false
  noMasterPermCheck := false
  getNode := fun inode => .ok inode

/-- The owner sets the times, the mode or both. -/
def touchOrChmod (setmask : BitVec 8) : SetAttr := ⟨setmask, 0o640, 0, 0, 0, 0, .never⟩

/-- A change of the mode is replayed as it was made. -/
theorem replay_attr_iff_chmod :
    ∃ s' line, sharedFile.setAttr fileOwner 5 (touchOrChmod SetAttr.setModeFlag) = .ok (s', line) ∧
      sharedFile.applyAttr line = .ok s' := by
  refine ⟨_, _, rfl, ?_⟩
  exact (@replay_attr_iff sharedFile _ fileOwner 5 5 (touchOrChmod SetAttr.setModeFlag) _ _
    rfl rfl rfl).mpr (.inl rfl)

/-- A change of the access time leaves the list as it is on the master, and gives it masks on
the shadow. -/
theorem touch_changes_list_on_shadow :
    ∃ s' line, sharedFile.setAttr fileOwner 5 (touchOrChmod SetAttr.setAtimeNowFlag) =
        .ok (s', line) ∧ sharedFile.applyAttr line ≠ .ok s' := by
  refine ⟨_, _, rfl, ?_⟩
  intro same
  have lists := congrFun (congrArg Inodes.acl (Except.ok.inj same)) 5
  exact absurd (congrArg (Option.map RichACL.flags) lists) (by decide)

end Inodes

end LeilFS.Acl
