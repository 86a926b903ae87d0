/-
Module: LeilFS.Acl.PosixConvert
Purpose: Rich access control lists made from POSIX lists, and POSIX lists read from them.
Trusted boundary: none
-/
import LeilFS.Acl.PosixAcl
import LeilFS.Acl.RichAcl

namespace LeilFS.Acl

open Mask

/-- The permissions that rights stand for, on a directory or on another node. -/
def rightsMask (isDir : Bool) (rights : Rights) : Mask :=
  convertMode2Mask (rights.setWidth 16) &&& ~~~directoryOnly isDir

namespace RichACL

/-! ## Isolating entries -/

/-- What stands in the place of an entry whose permissions change
[SPEC richacl_compat.cc:27-47]. -/
def changedMask (ace : Ace) (mask : Mask) : List Ace :=
  if mask ≠ 0 ∧ ace.bits = mask then
    [{ ace with flags := ace.flags &&& ~~~Ace.kInheritOnlyAce }]
  else if mask &&& ~~~kPosixAlwaysAllowed ≠ 0 then
    if ace.isInheritable then
      [{ ace with flags := ace.flags ||| Ace.kInheritOnlyAce },
        { ace with
          flags := ace.flags &&& (~~~Ace.kInheritanceFlags ||| Ace.kInheritedAce)
          mask := mask.setWidth 21 }]
    else [{ ace with mask := mask.setWidth 21 }]
  else if ace.isInheritable then [{ ace with flags := ace.flags ||| Ace.kInheritOnlyAce }]
  else []

/-- The part of `deny` that no entry of the same identifier speaks of
[SPEC richacl_compat.cc:255-262]. -/
def undecided (who : Ace) (deny : Mask) (aces : List Ace) : Mask :=
  aces.foldl (fun deny ace =>
    if !ace.isInheritOnly && ace.isSameIdentifier who then deny &&& ~~~ace.bits else deny) deny

/-- From the last entry back to the first, a denying entry of the same identifier takes the
permissions in; an allowing entry with one of them ends the search
[SPEC richacl_compat.cc:268-281]. -/
def extendDeny (who : Ace) (deny : Mask) : List Ace → Option (List Ace)
  | [] => none
  | ace :: before =>
      if ace.isInheritOnly then (extendDeny who deny before).map (ace :: ·)
      else if ace.isDeny then
        if ace.isSameIdentifier who then
          some ((changedMask ace (ace.bits ||| deny)).reverse ++ before)
        else (extendDeny who deny before).map (ace :: ·)
      else if ace.isAllow ∧ ace.bits &&& deny ≠ 0 then none
      else (extendDeny who deny before).map (ace :: ·)

/-- The denying entry of a new place. -/
def denyAce (who : Ace) (deny : Mask) : Ace :=
  Ace.make Ace.kAccessDeniedAceType (who.flags &&& ~~~Ace.kInheritanceFlags) deny who.id

/-- [SPEC richacl_compat.cc:254-286] -/
def isolateWho (who : Ace) (deny : Mask) (aces : List Ace) : List Ace :=
  let deny := undecided who deny aces
  if deny = 0 then aces
  else
    match extendDeny who deny aces.dropLast.reverse with
    | some before => before.reverse ++ aces.getLast?.toList
    | none => aces.dropLast ++ denyAce who deny :: aces.getLast?.toList

/-- The entries before a place, from the last to the first [SPEC richacl_compat.cc:305-314]. -/
def isolateEach (deny : Mask) : Nat → List Ace → List Ace
  | 0, aces => aces
  | i + 1, aces =>
      isolateEach deny i
        (match aces[i]? with
        | some ace =>
            if ace.isInheritOnly || ace.isOwner || ace.isGroup then aces
            else isolateWho ace deny aces
        | none => aces)

/-- [SPEC richacl_compat.cc:288-315] -/
def isolateGroupClass (groupMask deny : Mask) (aces : List Ace) : List Ace :=
  match aces.getLast? with
  | none => aces
  | some last =>
      if last.isInheritOnly || !last.isEveryone then aces
      else
        let deny := deny ||| (last.bits &&& ~~~groupMask)
        if deny = 0 then aces
        else
          let aces := isolateWho (Ace.special Ace.kGroupSpecialId) deny aces
          isolateEach deny (aces.length - 1) aces

/-! ## From POSIX lists -/

/-- An entry that allows. -/
def allowAce (flags : BitVec 9) (mask : Mask) (id : UInt32) : Ace :=
  Ace.make Ace.kAccessAllowedAceType flags mask id

/-- The entry of a named user or group [SPEC richacl_posix_convert.cc:59-69]. -/
def namedAce (isDir : Bool) (entry : Entry) : Ace :=
  allowAce (if entry.type = kNamedUser then 0 else Ace.kIdentifierGroup)
    (rightsMask isDir entry.accessRights) entry.id

/-- The entries of a POSIX list, before they are isolated
[SPEC richacl_posix_convert.cc:48-74]. -/
def posixAces (posix : AccessControlList) (isDir : Bool) : List Ace :=
  [allowAce Ace.kSpecialWho (rightsMask isDir posix.ownerRights) Ace.kOwnerSpecialId,
    allowAce Ace.kSpecialWho (rightsMask isDir posix.groupRights) Ace.kGroupSpecialId] ++
  (posix.list.filter (·.isNamed)).map (namedAce isDir) ++
  [allowAce Ace.kSpecialWho (rightsMask isDir posix.otherRights) Ace.kEveryoneSpecialId]

/-- [SPEC richacl_posix_convert.cc:25-95] -/
def appendPosixACL (acl : RichACL) (posix : AccessControlList) (isDir : Bool) : RichACL :=
  if posix.minimalAcl then
    { acl with
      ownerMask := rightsMask isDir posix.ownerRights
      groupMask := rightsMask isDir posix.groupRights
      otherMask := rightsMask isDir posix.otherRights
      flags := kMasked ||| kWriteThrough }
  else
    let other := rightsMask isDir posix.otherRights
    let aces := isolateGroupClass 0 other
      (isolateWho (Ace.special Ace.kOwnerSpecialId) other (acl.aceList ++ posixAces posix isDir))
    let acl : RichACL := ⟨0, 0, 0, 0, aces⟩
    let acl := { acl with
      ownerMask := acl.allowedToWho (Ace.special Ace.kOwnerSpecialId)
      groupMask := acl.allowedToWho (Ace.special Ace.kGroupSpecialId)
      otherMask := acl.allowedToWho (Ace.special Ace.kEveryoneSpecialId) }
    if posix.maskRights ≠ kMaskUnset then
      { acl with groupMask := rightsMask isDir posix.maskRights, flags := kMasked }
    else acl

/-- The flags of entries that are only there to be inherited. -/
def defaultFlags : BitVec 9 :=
  Ace.kFileInheritAce ||| Ace.kDirectoryInheritAce ||| Ace.kInheritOnlyAce

/-- [SPEC richacl_posix_convert.cc:97-109] -/
def appendDefaultPosixACL (acl : RichACL) (posix : AccessControlList) : RichACL :=
  let dirAcl := empty.appendPosixACL posix true
  { acl with
    aceList := acl.aceList ++
      dirAcl.aceList.map fun ace => { ace with flags := ace.flags ||| defaultFlags } }

/-! ## To POSIX lists -/

/-- [SPEC richacl_posix_convert.cc:111-122] -/
def hasGroupEntry (acl : RichACL) : Bool :=
  acl.aceList.any fun ace => !ace.isInheritOnly && ace.isGroup

/-- The rights of permissions. -/
def maskRights (mask : Mask) : Rights := (convertMask2Mode mask).setWidth 4

/-- One entry of a named user or group; the first occurrence counts
[SPEC richacl_posix_convert.cc:163-188]. -/
def addNamed (acl : RichACL) (posix : AccessControlList) (ace : Ace) : AccessControlList :=
  let add (type : EntryType) : AccessControlList :=
    if (posix.getEntry type ace.id).type ≠ kInvalid then posix
    else posix.setEntry type ace.id (maskRights (acl.allowedToWho ace))
  if ace.isInheritOnly then posix
  else if ace.isUnixUser then add kNamedUser
  else if ace.isUnixGroup then add kNamedGroup
  else posix

/-- The mode of the owner, the owning group and the others
[SPEC richacl_posix_convert.cc:131-157]. -/
def posixMode (acl : RichACL) : Mode :=
  let owner :=
    if acl.has kWriteThrough then acl.ownerMask
    else acl.allowedToWho (Ace.special Ace.kOwnerSpecialId)
  let owner := if acl.has kMasked then owner &&& acl.ownerMask else owner
  let group :=
    if acl.has kWriteThrough ∧ ¬ acl.hasGroupEntry then acl.groupMask
    else acl.allowedToWho (Ace.special Ace.kGroupSpecialId)
  let other :=
    if acl.has kWriteThrough then acl.otherMask
    else acl.allowedToWho (Ace.special Ace.kEveryoneSpecialId)
  let other := if acl.has kMasked then other &&& acl.otherMask else other
  convertMask2Mode owner <<< 6 ||| convertMask2Mode group <<< 3 ||| convertMask2Mode other

/-- [SPEC richacl_posix_convert.cc:124-197] -/
def convertToPosixACL (acl : RichACL) : Bool × AccessControlList :=
  if ¬ acl.has kMasked ∧ acl.aceList = [] then (false, AccessControlList.empty)
  else
    let posix := AccessControlList.empty.setMode acl.posixMode
    let posix := acl.aceList.foldl (addNamed acl) posix
    (true,
      if acl.has kMasked ∧ acl.hasGroupEntry then
        posix.setEntry kMask 0 (maskRights acl.groupMask)
      else posix)

/-- [SPEC richacl_posix_convert.cc:199-217] -/
def convertToDefaultPosixACL (acl : RichACL) : Bool × AccessControlList :=
  let inherited : RichACL :=
    { empty with
      aceList := (acl.aceList.filter (·.isInheritable)).map fun ace =>
        { ace with flags := ace.flags &&& ~~~Ace.kInheritOnlyAce } }
  let (found, posix) := inherited.convertToPosixACL
  (found, if found then posix.setEntry kMask 0 7 else posix)

end RichACL

end LeilFS.Acl
