/-
Module: LeilFS.Acl.SetAcl
Purpose: Setting the access control list of a node, as a rich list or as one of the two kinds
  of POSIX lists, and what clients then read.
Trusted boundary: none
-/
import LeilFS.Acl.Attributes
import LeilFS.Acl.PosixConvert

namespace LeilFS.Acl

open LeilFS.Nodes (InodeId)

/-- [SPEC acl_type.h:27-31] -/
inductive AclType where
  | default | access | richAcl
deriving Repr, DecidableEq

/-- The standard permissions of a mode. -/
def kStandardPermissionsMask : Mode := 0o777

/-- A node with the standard permissions of a mode, changed at some time. -/
def NodeAttributes.withPermissions (node : NodeAttributes) (mode : Mode) (ts : UInt32) :
    NodeAttributes :=
  { node with
    mode := node.mode &&& ~~~kStandardPermissionsMask ||| mode &&& kStandardPermissionsMask
    ctime := ts }

namespace Inodes

/-- [SPEC filesystem_node.cc:2465-2498] A list that stands for a mode is not stored. -/
def setRichAcl (s : Inodes) (id : InodeId) (node : NodeAttributes) (acl : RichACL) (ts : UInt32) :
    Except Refusal Inodes :=
  if ¬ acl.checkInheritFlags node.isDir then .error .enotsup
  else
    match acl.equivMode node.mode node.isDir with
    | some mode => .ok ((s.setAcl id none).setNode id (node.withPermissions mode ts))
    | none =>
        if acl.has RichACL.kAutoSetMode then
          let cleared := { acl with flags := acl.flags &&& ~~~RichACL.kAutoSetMode }
          .ok ((s.setAcl id (some (cleared.setMode node.mode node.isDir))).setNode id
            { node with ctime := ts })
        else
          .ok ((s.setAcl id (some acl)).setNode id (node.withPermissions acl.getMode ts))

/-- The stored list without the entries that a POSIX list of some kind replaces
[SPEC filesystem_node.cc:2509-2516]. -/
def keptAcl (s : Inodes) (type : AclType) (id : InodeId) : RichACL :=
  match s.acl id with
  | some acl => acl.createExplicitInheritance.removeInheritOnly (type = .default)
  | none => RichACL.empty

/-- [SPEC filesystem_node.cc:2500-2534] -/
def setPosixAcl (s : Inodes) (type : AclType) (id : InodeId) (node : NodeAttributes)
    (acl : AccessControlList) (ts : UInt32) : Except Refusal Inodes :=
  match type with
  | .richAcl => .error .einval
  | .default =>
      if ¬ node.isDir then .error .enotsup
      else
        let new := ((s.keptAcl .default id).appendDefaultPosixACL acl).setMode node.mode true
        .ok ((s.setAcl id (some new)).setNode id { node with ctime := ts })
  | .access =>
      let new := (s.keptAcl .access id).appendPosixACL acl node.isDir
      .ok ((s.setAcl id (some new)).setNode id (node.withPermissions new.getMode ts))

/-- The access list that a client reads; a node without a stored list has none
[SPEC matoclserv.cc:5921-5954]. -/
def accessList (s : Inodes) (id : InodeId) : Bool × AccessControlList :=
  match s.acl id with
  | some acl => acl.convertToPosixACL
  | none => (false, AccessControlList.empty)

/-- The default list that a client reads. -/
def defaultList (s : Inodes) (id : InodeId) : Bool × AccessControlList :=
  match s.acl id with
  | some acl => acl.convertToDefaultPosixACL
  | none => (false, AccessControlList.empty)

end Inodes

end LeilFS.Acl
