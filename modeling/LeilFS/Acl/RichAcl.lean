/-
Module: LeilFS.Acl.RichAcl
Purpose: Rich access control lists: entries that allow or deny, file masks, the check of
  permissions, the modes they stand for, and their inheritance.
Trusted boundary: none
-/
import Mathlib

namespace LeilFS.Acl

/-! ## Permissions -/

/-- A set of permissions [SPEC richacl.h:68-90]. -/
abbrev Mask := BitVec 32

/-- The mode of a node: the permissions of owner, group and others in the lower nine bits,
set-user-id, set-group-id and sticky in the next three, and extra attributes on top. -/
abbrev Mode := BitVec 16

namespace Mask

def kReadData : Mask := 0x00000001

def kWriteData : Mask := 0x00000002

def kAppendData : Mask := 0x00000004

def kReadNamedAttrs : Mask := 0x00000008

def kWriteNamedAttrs : Mask := 0x00000010

def kExecute : Mask := 0x00000020

def kDeleteChild : Mask := 0x00000040

def kReadAttributes : Mask := 0x00000080

def kWriteAttributes : Mask := 0x00000100

def kWriteRetention : Mask := 0x00000200

def kWriteRetentionHold : Mask := 0x00000400

def kDelete : Mask := 0x00010000

def kReadAcl : Mask := 0x00020000

def kWriteAcl : Mask := 0x00040000

def kWriteOwner : Mask := 0x00080000

def kSynchronize : Mask := 0x00100000

def kPosixModeRead : Mask := kReadData

def kPosixModeWrite : Mask := kWriteData ||| kAppendData ||| kDeleteChild

def kPosixModeExec : Mask := kExecute

def kPosixAlwaysAllowed : Mask := kSynchronize ||| kReadAttributes ||| kReadAcl

def kPosixOwnerAllowed : Mask := kWriteAttributes ||| kWriteOwner ||| kWriteAcl

/-- The permission that only a directory can give. -/
def directoryOnly (isDir : Bool) : Mask := if isDir then 0 else kDeleteChild

end Mask

open Mask

/-- The permissions of the lowest three bits of a mode [SPEC richacl.h:579-593]. -/
def convertMode2Mask (mode : Mode) : Mask :=
  (if mode &&& 4 ≠ 0 then kPosixModeRead else 0) |||
    (if mode &&& 2 ≠ 0 then kPosixModeWrite else 0) |||
      (if mode &&& 1 ≠ 0 then kPosixModeExec else 0)

/-- [SPEC richacl.h:595-609] -/
def convertMask2Mode (mask : Mask) : Mode :=
  (if mask &&& kPosixModeRead ≠ 0 then 4 else 0) |||
    (if mask &&& kPosixModeWrite ≠ 0 then 2 else 0) |||
      (if mask &&& kPosixModeExec ≠ 0 then 1 else 0)

/-- Only the lowest three bits of a mode matter. -/
theorem convertMode2Mask_congr {mode mode' : Mode} (eq : mode &&& 7 = mode' &&& 7) :
    convertMode2Mask mode = convertMode2Mask mode' := by
  have low : ∀ (m bit : Mode), 7 &&& bit = bit → m &&& bit = m &&& 7 &&& bit := by
    intro m bit inside
    rw [BitVec.and_assoc, inside]
  unfold convertMode2Mask
  rw [low mode 4 (by decide), low mode 2 (by decide), low mode 1 (by decide),
    low mode' 4 (by decide), low mode' 2 (by decide), low mode' 1 (by decide), eq]

/-! ## Entries -/

/-- [SPEC richacl.h:45-208] -/
structure Ace where
  type : BitVec 2
  flags : BitVec 9
  mask : BitVec 21
  id : UInt32
deriving Repr, DecidableEq

namespace Ace

def kAccessAllowedAceType : BitVec 2 := 0

def kAccessDeniedAceType : BitVec 2 := 1

def kFileInheritAce : BitVec 9 := 0x001

def kDirectoryInheritAce : BitVec 9 := 0x002

def kNoPropagateInheritAce : BitVec 9 := 0x004

def kInheritOnlyAce : BitVec 9 := 0x008

def kIdentifierGroup : BitVec 9 := 0x040

def kInheritedAce : BitVec 9 := 0x080

def kSpecialWho : BitVec 9 := 0x100

def kOwnerSpecialId : UInt32 := 0

def kGroupSpecialId : UInt32 := 1

def kEveryoneSpecialId : UInt32 := 2

def kInheritanceFlags : BitVec 9 :=
  kFileInheritAce ||| kDirectoryInheritAce ||| kNoPropagateInheritAce ||| kInheritOnlyAce |||
    kInheritedAce

/-- An entry keeps 21 bits of the permissions it is given. -/
def make (type : BitVec 2) (flags : BitVec 9) (mask : Mask) (id : UInt32) : Ace :=
  ⟨type, flags, mask.setWidth 21, id⟩

/-- The permissions that an entry speaks of. -/
def bits (ace : Ace) : Mask := ace.mask.setWidth 32

def has (ace : Ace) (flag : BitVec 9) : Bool := ace.flags &&& flag ≠ 0

def isAllow (ace : Ace) : Bool := ace.type = kAccessAllowedAceType

def isDeny (ace : Ace) : Bool := ace.type = kAccessDeniedAceType

def isOwner (ace : Ace) : Bool := ace.has kSpecialWho && ace.id = kOwnerSpecialId

def isGroup (ace : Ace) : Bool := ace.has kSpecialWho && ace.id = kGroupSpecialId

def isEveryone (ace : Ace) : Bool := ace.has kSpecialWho && ace.id = kEveryoneSpecialId

def isUnixUser (ace : Ace) : Bool := !ace.has kSpecialWho && !ace.has kIdentifierGroup

def isUnixGroup (ace : Ace) : Bool := !ace.has kSpecialWho && ace.has kIdentifierGroup

def isInheritable (ace : Ace) : Bool := ace.has (kFileInheritAce ||| kDirectoryInheritAce)

def isInheritOnly (ace : Ace) : Bool := ace.has kInheritOnlyAce

def isSameIdentifier (ace other : Ace) : Bool :=
  (ace.flags ^^^ other.flags) &&& (kSpecialWho ||| kIdentifierGroup) = 0 && ace.id = other.id

def inheritsToDirectory (ace : Ace) : Bool :=
  ace.has kDirectoryInheritAce || ace.has kFileInheritAce && !ace.has kNoPropagateInheritAce

/-- What names the owner, the owning group and everyone. -/
def special (id : UInt32) : Ace := make 0 kSpecialWho 0 id

end Ace

/-! ## Lists -/

/-- [SPEC richacl.h:37-491] -/
structure RichACL where
  ownerMask : Mask
  groupMask : Mask
  otherMask : Mask
  flags : BitVec 16
  aceList : List Ace
deriving Repr, DecidableEq

namespace RichACL

def kAutoInherit : BitVec 16 := 0x01

def kProtected : BitVec 16 := 0x02

def kDefaulted : BitVec 16 := 0x04

def kWriteThrough : BitVec 16 := 0x40

def kMasked : BitVec 16 := 0x80

def kAutoSetMode : BitVec 16 := 0x20

def empty : RichACL := ⟨0, 0, 0, 0, []⟩

def has (acl : RichACL) (flag : BitVec 16) : Bool := acl.flags &&& flag ≠ 0

def insert (acl : RichACL) (ace : Ace) : RichACL :=
  { acl with aceList := acl.aceList ++ [ace] }

/-- [SPEC richacl.cc:40-47] -/
def setMode (acl : RichACL) (mode : Mode) (isDir : Bool) : RichACL :=
  { acl with
    flags := acl.flags ||| (kMasked ||| kWriteThrough)
    ownerMask := convertMode2Mask (mode >>> 6) &&& ~~~directoryOnly isDir
    groupMask := convertMode2Mask (mode >>> 3) &&& ~~~directoryOnly isDir
    otherMask := convertMode2Mask mode &&& ~~~directoryOnly isDir }

/-- Only the permissions of a mode matter. -/
theorem setMode_congr (acl : RichACL) {mode mode' : Mode} (isDir : Bool)
    (eq : mode &&& 0o777 = mode' &&& 0o777) : acl.setMode mode isDir = acl.setMode mode' isDir := by
  have bits : ∀ (m : Mode) (shift : Nat), (0o777 : Mode) >>> shift &&& (7 : Mode) = 7 →
      m >>> shift &&& (7 : Mode) = (m &&& 0o777) >>> shift &&& (7 : Mode) := by
    intro m shift inside
    rw [BitVec.ushiftRight_and_distrib, BitVec.and_assoc, inside]
  have owner : mode >>> 6 &&& (7 : Mode) = mode' >>> 6 &&& (7 : Mode) := by
    rw [bits mode 6 (by decide), bits mode' 6 (by decide), eq]
  have group : mode >>> 3 &&& (7 : Mode) = mode' >>> 3 &&& (7 : Mode) := by
    rw [bits mode 3 (by decide), bits mode' 3 (by decide), eq]
  have other : mode &&& 7 = mode' &&& 7 := by
    rw [← BitVec.ushiftRight_zero mode, ← BitVec.ushiftRight_zero mode',
      bits mode 0 (by decide), bits mode' 0 (by decide), eq]
  unfold setMode
  rw [convertMode2Mask_congr owner, convertMode2Mask_congr group, convertMode2Mask_congr other]

/-- [SPEC richacl.cc:49-52] -/
def getMode (acl : RichACL) : Mode :=
  convertMask2Mode acl.ownerMask <<< 6 ||| convertMask2Mode acl.groupMask <<< 3 |||
    convertMask2Mode acl.otherMask

/-! ### The check of permissions -/

/-- To whom an entry applies, seen from a caller. -/
inductive AceMatch where
  | nobody | owner | groupClass | everyone
deriving Repr, DecidableEq

/-- [SPEC richacl.h:514-543] -/
def aceMatch (ownerUid ownerGid uid : UInt32) (groups : List UInt32) (ace : Ace) : AceMatch :=
  if ace.isInheritOnly then .nobody
  else if ace.isOwner then if ownerUid ≠ uid then .nobody else .owner
  else if ace.isGroup then if ownerGid ∈ groups then .groupClass else .nobody
  else if ace.isUnixUser then
    if uid ≠ ace.id then .nobody else if uid = ownerUid then .owner else .groupClass
  else if ace.isUnixGroup then if ace.id ∈ groups then .groupClass else .nobody
  else .everyone

/-- What a check knows: the permissions that are not decided yet, those that are denied, and
whether the caller is the owner or in a group of the list. -/
structure Check where
  undecided : Mask
  denied : Mask
  inClass : Bool
deriving Repr, DecidableEq

/-- One entry that applies [SPEC richacl.h:545-557]. -/
def checkAce (acl : RichACL) (kind : AceMatch) (ace : Ace) (check : Check) : Check :=
  let aceMask :=
    if kind = .groupClass ∧ acl.has kMasked ∧ ace.isAllow then ace.bits &&& acl.groupMask
    else ace.bits
  { inClass := check.inClass || kind ≠ .everyone
    denied := if ace.isDeny then check.denied ||| (aceMask &&& check.undecided) else check.denied
    undecided := check.undecided &&& ~~~aceMask }

/-- [SPEC richacl.h:509-562] The loop ends early when nothing is left to decide. -/
def checkAces (acl : RichACL) (kind : Ace → AceMatch) : List Ace → Check → Check
  | [], check => check
  | ace :: aces, check =>
      if kind ace = .nobody then checkAces acl kind aces check
      else
        let check := checkAce acl (kind ace) ace check
        if check.undecided = 0 ∧ check.inClass then check else checkAces acl kind aces check

/-- [SPEC richacl.h:494-577] -/
def checkPermission (acl : RichACL) (requested : Mask) (ownerUid ownerGid uid : UInt32)
    (groups : List UInt32) : Bool :=
  if acl.has kMasked ∧ acl.has kWriteThrough ∧ ownerUid = uid then
    requested &&& ~~~acl.ownerMask = 0
  else
    let check := checkAces acl (aceMatch ownerUid ownerGid uid groups) acl.aceList
      { undecided := requested
        denied := 0
        inClass := !acl.has kMasked || ownerGid ∈ groups }
    let denied := check.denied ||| check.undecided
    let denied :=
      if acl.has kMasked then
        if uid = ownerUid then denied ||| (requested &&& ~~~acl.ownerMask)
        else if check.inClass then denied ||| (requested &&& ~~~acl.groupMask)
        else if acl.has kWriteThrough then requested &&& ~~~acl.otherMask
        else denied ||| (requested &&& ~~~acl.otherMask)
      else denied
    denied = 0

/-! ### What entries allow -/

/-- An entry adds its permissions, or takes them away. -/
def applyAce (ace : Ace) (allowed : Mask) : Mask :=
  if ace.isAllow then allowed ||| ace.bits
  else if ace.isDeny then allowed &&& ~~~ace.bits
  else allowed

/-- [SPEC richacl.cc:97-114] The entries are taken from the last to the first. -/
def allowedToWho (acl : RichACL) (who : Ace) : Mask :=
  acl.aceList.foldr (fun ace allowed =>
    if !ace.isInheritOnly && (ace.isSameIdentifier who || ace.isEveryone) then
      applyAce ace allowed
    else allowed) 0

/-- [SPEC richacl.cc:204-222] -/
def checkInheritFlags (acl : RichACL) (isDirectory : Bool) : Bool :=
  acl.aceList.all (fun ace => !ace.isInheritOnly || ace.isInheritable) &&
    (isDirectory || acl.aceList.all fun ace => !ace.isInheritOnly && !ace.isInheritable)

/-- What the owner, the group and everyone are allowed, and for what it is defined. -/
structure ModeState where
  ownerAllowed : Mask
  ownerDefined : Mask
  groupAllowed : Mask
  groupDefined : Mask
  everyoneAllowed : Mask
  everyoneDefined : Mask
deriving Repr, DecidableEq

namespace ModeState

/-- An entry of the owner or of everyone, for the owner [SPEC richacl.cc:304-317]. -/
def ownerAce (ace : Ace) (s : ModeState) : Option ModeState :=
  let x := ace.bits &&& ~~~s.ownerDefined
  if ace.isAllow then
    if x &&& (s.groupDefined &&& ~~~s.groupAllowed) ≠ 0 then none
    else some { s with ownerAllowed := s.ownerAllowed ||| x, ownerDefined := s.ownerDefined ||| x }
  else
    if x &&& s.groupAllowed ≠ 0 then none
    else some { s with ownerDefined := s.ownerDefined ||| x }

/-- An entry of everyone, for the group and the others [SPEC richacl.cc:319-327]. -/
def everyoneAce (ace : Ace) (s : ModeState) : ModeState :=
  let x := ace.bits
  { s with
    groupAllowed := if ace.isAllow then s.groupAllowed ||| (x &&& ~~~s.groupDefined)
      else s.groupAllowed
    everyoneAllowed := if ace.isAllow then s.everyoneAllowed ||| (x &&& ~~~s.everyoneDefined)
      else s.everyoneAllowed
    groupDefined := s.groupDefined ||| x
    everyoneDefined := s.everyoneDefined ||| x }

/-- An entry of the group [SPEC richacl.cc:328-333]. -/
def groupAce (ace : Ace) (s : ModeState) : ModeState :=
  let x := ace.bits &&& ~~~s.groupDefined
  { s with
    groupAllowed := if ace.isAllow then s.groupAllowed ||| x else s.groupAllowed
    groupDefined := s.groupDefined ||| x }

/-- One entry; a list with other entries has no mode. -/
def addAce (ace : Ace) (s : ModeState) : Option ModeState :=
  if ace.flags &&& ~~~Ace.kSpecialWho ≠ 0 then none
  else if ace.isOwner || ace.isEveryone then
    (s.ownerAce ace).map fun s => if ace.isEveryone then s.everyoneAce ace else s
  else if ace.isGroup then some (s.groupAce ace)
  else none

/-- Before the first entry [SPEC richacl.cc:286-290]. -/
def start (isDir : Bool) : ModeState where
  ownerAllowed := 0
  ownerDefined := kPosixAlwaysAllowed ||| kPosixOwnerAllowed ||| directoryOnly isDir
  groupAllowed := 0
  groupDefined := kPosixAlwaysAllowed ||| directoryOnly isDir
  everyoneAllowed := 0
  everyoneDefined := kPosixAlwaysAllowed ||| directoryOnly isDir

/-- All entries, in their order. -/
def addAces (aces : List Ace) (s : ModeState) : Option ModeState :=
  aces.foldlM (fun s ace => s.addAce ace) s

end ModeState

/-- The permissions of owner, group and others after the file masks
[SPEC richacl.cc:343-352]. -/
def maskedModes (acl : RichACL) (s : ModeState) : Mask × Mask × Mask :=
  if acl.has kMasked then
    if acl.has kWriteThrough then
      (acl.ownerMask, s.groupAllowed &&& acl.groupMask, acl.otherMask)
    else
      (s.ownerAllowed &&& acl.ownerMask, s.groupAllowed &&& acl.groupMask,
        s.everyoneAllowed &&& acl.otherMask)
  else (s.ownerAllowed, s.groupAllowed, s.everyoneAllowed)

/-- [SPEC richacl.cc:283-367] The mode that a list stands for, if there is one.  A list
that is to follow the mode has other flags and never comes to the test for it. -/
def equivMode (acl : RichACL) (mode : Mode) (isDir : Bool) : Option Mode :=
  if acl.flags &&& ~~~(kWriteThrough ||| kMasked) ≠ 0 then none
  else if acl.has kAutoSetMode ∧ acl.aceList = [] then some mode
  else
    (ModeState.addAces acl.aceList (ModeState.start isDir)).bind fun s =>
      if s.groupAllowed &&& ~~~s.ownerDefined ≠ 0 then none
      else
        let (owner, group, everyone) := acl.maskedModes s
        let mode := mode &&& ~~~(0o777 : Mode) ||| convertMask2Mode owner <<< 6 |||
          convertMask2Mode group <<< 3 ||| convertMask2Mode everyone
        let differs (bits : Mode) (mask : Mask) : Bool :=
          (convertMode2Mask bits ^^^ mask) &&& ~~~directoryOnly isDir ≠ 0
        if differs (mode >>> 6) owner || differs (mode >>> 3) group || differs mode everyone then
          none
        else some mode

/-! ### Inheritance -/

/-- An entry of a directory for a new directory in it [SPEC richacl.cc:238-245]. -/
def inheritToDirectory (dirAce : Ace) : Ace :=
  { dirAce with
    flags :=
      if dirAce.has Ace.kNoPropagateInheritAce then dirAce.flags &&& ~~~Ace.kInheritanceFlags
      else if dirAce.has Ace.kDirectoryInheritAce then dirAce.flags &&& ~~~Ace.kInheritOnlyAce
      else dirAce.flags ||| Ace.kInheritOnlyAce }

/-- An entry of a directory for a new file in it [SPEC richacl.cc:260-263]. -/
def inheritToFile (dirAce : Ace) : Ace :=
  { dirAce with
    flags := dirAce.flags &&& ~~~Ace.kInheritanceFlags
    mask := (dirAce.bits &&& ~~~kDeleteChild).setWidth 21 }

/-- [SPEC richacl.cc:224-281] -/
def inherit (dirAcl : RichACL) (isDir : Bool) : RichACL :=
  let aces :=
    if isDir then (dirAcl.aceList.filter (·.inheritsToDirectory)).map inheritToDirectory
    else (dirAcl.aceList.filter (·.has Ace.kFileInheritAce)).map inheritToFile
  if dirAcl.has kAutoInherit then
    { empty with
      flags := kAutoInherit
      aceList := aces.map fun ace => { ace with flags := ace.flags ||| Ace.kInheritedAce } }
  else
    { empty with
      aceList := aces.map fun ace => { ace with flags := ace.flags &&& ~~~Ace.kInheritedAce } }

/-- An entry without its inheritance [SPEC richacl.cc:410]. -/
def accessAce (ace : Ace) : Ace :=
  { ace with
    flags := ace.flags &&&
      ~~~(Ace.kInheritOnlyAce ||| Ace.kFileInheritAce ||| Ace.kDirectoryInheritAce) }

/-- [SPEC richacl.cc:400-416] The entries for access keep their places, and their
inheritance goes to the end. -/
def createExplicitInheritance (acl : RichACL) : RichACL :=
  let double (ace : Ace) : Bool := !ace.isInheritOnly && ace.isInheritable
  { acl with
    aceList :=
      acl.aceList.map (fun ace => if double ace then accessAce ace else ace) ++
        (acl.aceList.filter double).map fun ace =>
          { ace with flags := ace.flags ||| Ace.kInheritOnlyAce } }

/-- [SPEC richacl.cc:195-202] -/
def removeInheritOnly (acl : RichACL) (removeWithFlagSet : Bool) : RichACL :=
  { acl with aceList := acl.aceList.filter fun ace => ace.isInheritOnly ≠ removeWithFlagSet }

end RichACL

end LeilFS.Acl
