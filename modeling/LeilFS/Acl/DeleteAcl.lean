/-
Module: LeilFS.Acl.DeleteAcl
Purpose: Removing the access control list of a node, or the entries of one kind, and when the
  mode of the node decides afterwards.
Trusted boundary: none
-/
import LeilFS.Acl.Permissions
import LeilFS.Acl.SetAcl

namespace LeilFS.Acl

open LeilFS.Nodes (InodeId)
open NodeAttributes RichACL List Mask

/-! ## Removal -/

namespace Inodes

/-- The stored list without the entries of a kind. An empty list is not stored. -/
def prunedAcl (s : Inodes) (type : AclType) (id : InodeId) : Option RichACL :=
  match s.acl id with
  | none => none
  | some _ => if (s.keptAcl type id).aceList = [] then none else some (s.keptAcl type id)

/-- [SPEC filesystem_node.cc:2401-2444] -/
def deleteAcl (s : Inodes) (type : AclType) (id : InodeId) (node : NodeAttributes) (ts : UInt32) :
    Except Refusal Inodes :=
  match type with
  | .richAcl => .ok ((s.setAcl id none).setNode id { node with ctime := ts })
  | .default =>
      if ¬ node.isDir then .error .enotsup
      else .ok ((s.setAcl id (s.prunedAcl .default id)).setNode id { node with ctime := ts })
  | .access => .ok ((s.setAcl id (s.prunedAcl .access id)).setNode id { node with ctime := ts })

end Inodes

/-! ## What is left of a list -/

/-- An entry that is inherited, whether or not it also decides on access. -/
def Ace.forInheritance (ace : Ace) : Bool := ace.isInheritOnly || ace.isInheritable

namespace RichACL

variable {acl : RichACL}

/-- The entries that are left are for inheritance only. -/
theorem isInheritOnly_of_mem_removeInheritOnly {ace : Ace}
    (mem : ace ∈ (acl.removeInheritOnly false).aceList) : ace.isInheritOnly = true := by
  simpa using (mem_filter.mp mem).2

/-- Something is left when an entry was inherited. -/
theorem left_eq_nil_iff : (acl.createExplicitInheritance.removeInheritOnly false).aceList = [] ↔
      ∀ ace ∈ acl.aceList, ace.forInheritance = false := by
  unfold removeInheritOnly
  rw [filter_eq_nil_iff]
  constructor
  · intro none ace mem
    rw [Ace.forInheritance, Bool.or_eq_false_iff]
    have notOnly : ace.isInheritOnly = false := by
      by_contra only
      refine none ace (mem_append_left _ (mem_map.mpr ⟨ace, mem, ?_⟩)) (by simp [only])
      simp [only]
    refine ⟨notOnly, ?_⟩
    by_contra inherited
    -- the copy that inherits
    refine none _ (mem_append_right _ (mem_map.mpr ⟨ace, ?_, rfl⟩)) ?_
    · exact mem_filter.mpr ⟨mem, by simp [notOnly, inherited]⟩
    · have only : (ace.flags ||| Ace.kInheritOnlyAce) &&& Ace.kInheritOnlyAce ≠ 0 := by
        generalize ace.flags = flags
        revert flags
        decide
      simpa [Ace.isInheritOnly, Ace.has] using only
  · intro none ace mem
    obtain kept | copied := mem_append.mp mem
    · obtain ⟨original, there, rfl⟩ := mem_map.mp kept
      obtain ⟨notOnly, notInherited⟩ := Bool.or_eq_false_iff.mp (none original there)
      simp [notOnly, notInherited]
    · obtain ⟨original, there, rfl⟩ := mem_map.mp copied
      obtain ⟨mem, double⟩ := mem_filter.mp there
      obtain ⟨-, notInherited⟩ := Bool.or_eq_false_iff.mp (none original mem)
      simp [notInherited] at double

/-! ## Rights -/

/-- The rights among reading, writing and executing that a mask grants. -/
def passed (isDir : Bool) (mask : Mask) : Mode :=
  let grants (mode : Mode) : Bool :=
    convertMode2Mask mode &&& ~~~directoryOnly isDir &&& ~~~mask = 0
  (if grants 4 then 4 else 0) ||| (if grants 2 then 2 else 0) ||| (if grants 1 then 1 else 0)

theorem passed_zero (isDir : Bool) : passed isDir 0 = 0 := by
  cases isDir <;> decide

theorem passed_and_seven (isDir : Bool) (mask : Mask) :
    passed isDir mask &&& 7 = passed isDir mask := by
  unfold passed
  dsimp only
  split <;> split <;> split <;> decide

/-- The permissions of a request, right by right. -/
theorem permissions_of_request (isDir : Bool) (req : BitVec 3) :
    convertMode2Mask (req.setWidth 16) &&& ~~~directoryOnly isDir =
      (if req.getLsbD 2 then convertMode2Mask 4 &&& ~~~directoryOnly isDir else 0) |||
        (if req.getLsbD 1 then convertMode2Mask 2 &&& ~~~directoryOnly isDir else 0) |||
          (if req.getLsbD 0 then convertMode2Mask 1 &&& ~~~directoryOnly isDir else 0) := by
  revert isDir req
  decide

/-- A mask grants a request when it grants each right of it. -/
theorem grants_iff (isDir : Bool) (mask : Mask) (req : BitVec 3) :
    convertMode2Mask (req.setWidth 16) &&& ~~~directoryOnly isDir &&& ~~~mask = 0 ↔
      req.setWidth 16 &&& passed isDir mask = req.setWidth 16 := by
  have asked : ∀ (mode : Mode) (wanted : Bool),
      (if wanted then convertMode2Mask mode &&& ~~~directoryOnly isDir else 0) &&& ~~~mask = 0#32 ↔
        (wanted = true →
          decide (convertMode2Mask mode &&& ~~~directoryOnly isDir &&& ~~~mask = 0) = true) := by
    intro mode wanted
    cases wanted <;> simp
  have contained : ∀ (req : BitVec 3) (read write exec : Bool),
      req.setWidth 16 &&& ((if read then 4 else 0) ||| (if write then 2 else 0) |||
          (if exec then 1 else 0) : Mode) = req.setWidth 16 ↔
        ((req.getLsbD 2 = true → read = true) ∧ (req.getLsbD 1 = true → write = true)) ∧
          (req.getLsbD 0 = true → exec = true) := by
    decide
  change _ = 0#32 ↔ _
  rw [permissions_of_request, BitVec.and_or_distrib_right, BitVec.and_or_distrib_right,
    BitVec.or_eq_zero_iff, BitVec.or_eq_zero_iff, asked, asked, asked]
  exact (contained req _ _ _).symm

/-- Modes of the three rights that contain the same requests are the same. -/
theorem eq_of_same_requests {mode mode' : Mode} (low : mode &&& 7 = mode)
    (low' : mode' &&& 7 = mode')
    (eq : ∀ req : BitVec 3, req.setWidth 16 &&& mode = req.setWidth 16 ↔
      req.setWidth 16 &&& mode' = req.setWidth 16) : mode = mode' := by
  have whole : ∀ m : Mode, m &&& 7 = m → (m.setWidth 3).setWidth 16 = m := by
    intro m inside
    have cut : (m.setWidth 3).setWidth 16 = m &&& 7 := by
      ext i inside
      interval_cases i <;> simp
    rw [cut, inside]
  have first := (eq (mode.setWidth 3)).mp (by rw [whole mode low, BitVec.and_self])
  have second := (eq (mode'.setWidth 3)).mpr (by rw [whole mode' low', BitVec.and_self])
  rw [whole mode low] at first
  rw [whole mode' low', BitVec.and_comm] at second
  exact first.symm.trans second

end RichACL

namespace NodeAttributes

/-- The rights that a mode gives the owner. -/
def ownerBits (node : NodeAttributes) : Mode := node.mode >>> 6 &&& 7

/-- The rights that a mode gives the members of the owning group. A session may put all groups
together with the others, and a node may treat everybody as its owner. -/
def memberBits (node : NodeAttributes) (ignoreGid : Bool) : Mode :=
  if node.mode &&& noOwner ≠ 0 then node.ownerBits
  else if ignoreGid then (node.mode >>> 3 ||| node.mode) &&& 7
  else node.mode >>> 3 &&& 7

/-- The rights that a mode gives others. -/
def otherBits (node : NodeAttributes) (ignoreGid : Bool) : Mode :=
  if node.mode &&& noOwner ≠ 0 then node.ownerBits
  else if ignoreGid then (node.mode >>> 3 ||| node.mode) &&& 7
  else node.mode &&& 7

/-- The rights that a mode gives a caller. -/
def classBits (node : NodeAttributes) (ignoreGid : Bool) (uid : UInt32) (groups : List UInt32) :
    Mode :=
  if uid = node.uid then node.ownerBits
  else if node.gid ∈ groups then node.memberBits ignoreGid
  else node.otherBits ignoreGid

theorem classBits_and_seven (node : NodeAttributes) (ignoreGid : Bool) (uid : UInt32)
    (groups : List UInt32) :
    node.classBits ignoreGid uid groups &&& 7 = node.classBits ignoreGid uid groups := by
  have cut : ∀ m : Mode, m &&& 7 &&& 7 = m &&& 7 := fun m => by
    rw [BitVec.and_assoc]
    rfl
  unfold classBits memberBits otherBits ownerBits
  repeat' split
  all_goals exact cut _

end NodeAttributes

/-- The masks of a list give each class of callers what the mode of the node gives it, without
any entry. A list gives nothing to members of the owning group then, and nothing to anybody unless
the masks are written through. -/
structure RichACL.StandsForMode (acl : RichACL) (node : NodeAttributes) (ignoreGid : Bool) :
    Prop where
  owner : node.uid ≠ 0 →
    (if acl.has RichACL.kMasked ∧ acl.has RichACL.kWriteThrough then
      RichACL.passed node.isDir acl.ownerMask else 0) = node.ownerBits
  member : node.memberBits ignoreGid = 0
  other :
    (if acl.has RichACL.kMasked ∧ acl.has RichACL.kWriteThrough then
      RichACL.passed node.isDir acl.otherMask else 0) = node.otherBits ignoreGid

/-- For every caller the masks alone give what the mode gives. -/
theorem standsForMode_iff {acl : RichACL} {node : NodeAttributes} {ignoreGid : Bool} :
    acl.StandsForMode node ignoreGid ↔ ∀ uid groups, uid ≠ 0 →
      passed node.isDir (acl.maskAlone node.uid node.gid uid groups) =
        node.classBits ignoreGid uid groups := by
  have alone : ∀ uid groups,
      passed node.isDir (acl.maskAlone node.uid node.gid uid groups) =
        if uid = node.uid then
          if acl.has kMasked ∧ acl.has kWriteThrough then
            passed node.isDir acl.ownerMask else 0
        else if node.gid ∈ groups then 0
        else
          if acl.has kMasked ∧ acl.has kWriteThrough then
            passed node.isDir acl.otherMask else 0 := by
    intro uid groups
    unfold maskAlone
    have none := passed_zero node.isDir
    repeat' split
    all_goals first | rfl | exact none
  simp only [alone]
  constructor
  · rintro ⟨owner, mem, other⟩ uid groups notRoot
    unfold classBits
    by_cases isOwner : uid = node.uid
    · rw [if_pos isOwner, if_pos isOwner]
      exact owner (isOwner ▸ notRoot)
    rw [if_neg isOwner, if_neg isOwner]
    by_cases inGroup : node.gid ∈ groups
    · rw [if_pos inGroup, if_pos inGroup, mem]
    · rw [if_neg inGroup, if_neg inGroup]
      exact other
  · intro all
    -- a caller who is neither root nor the owner
    obtain ⟨stranger, notRoot, notOwner⟩ : ∃ uid : UInt32, uid ≠ 0 ∧ uid ≠ node.uid := by
      by_cases first : node.uid = 1
      · exact ⟨2, by decide, by rw [first]; decide⟩
      · exact ⟨1, by decide, fun eq => first eq.symm⟩
    unfold classBits at all
    refine ⟨fun owned => ?_, ?_, ?_⟩
    · have here := all node.uid [] owned
      rwa [if_pos rfl, if_pos rfl] at here
    · have here := all stranger [node.gid] notRoot
      rw [if_neg notOwner, if_neg notOwner, if_pos mem_cons_self, if_pos mem_cons_self] at here
      exact here.symm
    · have here := all stranger [] notRoot
      rwa [if_neg notOwner, if_neg notOwner, if_neg not_mem_nil] at here

/-! ## Access after the removal -/

namespace Inodes

variable {s s' : Inodes} {id : InodeId} {node node' : NodeAttributes} {ts : UInt32}

/-- Without a list the mode decides. -/
theorem access_of_none (none : s.acl id = none) (context : Context) (modeMask : Mode) :
    s.access context id node modeMask = true ↔
      (context.noMasterPermCheck = true ∨ context.uid = 0) ∨
        modeMask &&& node.classBits context.ignoreGid context.uid context.groups = modeMask := by
  unfold access
  rw [none]
  by_cases unchecked : context.noMasterPermCheck = true ∨ context.uid = 0
  · rw [if_pos unchecked]
    exact iff_of_true rfl (.inl unchecked)
  rw [if_neg unchecked, decide_eq_true_iff, or_iff_right unchecked, BitVec.and_comm]
  unfold classBits memberBits otherBits
    ownerBits
  by_cases owner : context.uid = node.uid
  · simp [owner]
  by_cases everybody : node.mode &&& noOwner = 0#16
  · by_cases ignore : context.ignoreGid = true
    · simp [owner, everybody, ignore]
    · by_cases inGroup : node.gid ∈ context.groups
      · simp [owner, everybody, ignore, inGroup]
      · simp [owner, everybody, ignore, inGroup]
  · simp [everybody]

/-- With a list that is for inheritance only, its masks decide. -/
theorem access_of_inheritOnly {acl : RichACL} (stored : s.acl id = some acl)
    (noAccess : ∀ ace ∈ acl.aceList, ace.isInheritOnly = true) (context : Context)
    (req : BitVec 3) : s.access context id node (req.setWidth 16) = true ↔
      (context.noMasterPermCheck = true ∨ context.uid = 0) ∨ req.setWidth 16 &&& passed node.isDir
          (acl.maskAlone node.uid node.gid context.uid context.groups) = req.setWidth 16 := by
  unfold access
  rw [stored]
  by_cases unchecked : context.noMasterPermCheck = true ∨ context.uid = 0
  · rw [if_pos unchecked]
    exact iff_of_true rfl (.inl unchecked)
  · rw [if_neg unchecked, or_iff_right unchecked, ← grants_iff]
    exact checkPermission_of_inheritOnly noAccess _

/-- The decisions of a list that is for inheritance only are those of the mode exactly when its
masks give everybody what the mode gives. -/
theorem mode_decides_of_inheritOnly {acl : RichACL} (stored : s.acl id = some acl)
    (noAccess : ∀ ace ∈ acl.aceList, ace.isInheritOnly = true) (ignoreGid : Bool) :
    (∀ (context : Context) (req : BitVec 3), context.uid ≠ 0 → context.ignoreGid = ignoreGid →
        s.access context id node (req.setWidth 16) =
          (s.setAcl id none).access context id node (req.setWidth 16)) ↔
      acl.StandsForMode node ignoreGid := by
  have without : (s.setAcl id none).acl id = none := Function.update_self ..
  have decisions : ∀ (context : Context) (req : BitVec 3),
      s.access context id node (req.setWidth 16) =
          (s.setAcl id none).access context id node (req.setWidth 16) ↔
        ((context.noMasterPermCheck = true ∨ context.uid = 0) ∨
            req.setWidth 16 &&& passed node.isDir
              (acl.maskAlone node.uid node.gid context.uid context.groups) = req.setWidth 16 ↔
          (context.noMasterPermCheck = true ∨ context.uid = 0) ∨
            req.setWidth 16 &&&
                node.classBits context.ignoreGid context.uid context.groups =
              req.setWidth 16) := by
    intro context req
    rw [Bool.eq_iff_iff, access_of_none without, access_of_inheritOnly stored noAccess]
  simp only [decisions, standsForMode_iff]
  constructor
  · intro eq uid groups notRoot
    refine eq_of_same_requests (passed_and_seven _ _)
      (node.classBits_and_seven _ _ _) fun req => ?_
    have here := eq ⟨0, uid, groups, ignoreGid, false, false, fun _ => .error .enoent⟩
      req notRoot rfl
    have checked : ¬(false = true ∨ uid = 0) := by simp [notRoot]
    rwa [or_iff_right checked, or_iff_right checked] at here
  · intro stands context req notRoot session
    rw [stands context.uid context.groups notRoot, session]

/-- After the entries for access are removed, the mode decides for all callers of a kind of
session exactly when nothing in the list was for inheritance, or the masks that stay give
everybody what the mode gives. -/
theorem mode_decides_iff (deleted : s.deleteAcl .access id node ts = .ok s')
    (known : s'.node id = some node') (ignoreGid : Bool) :
    (∀ (context : Context) (request : BitVec 3), context.uid ≠ 0 →
      context.ignoreGid = ignoreGid →
        s'.access context id node' (request.setWidth 16) =
          (s'.setAcl id none).access context id node' (request.setWidth 16)) ↔
      ∀ acl, s.acl id = some acl → (∃ ace ∈ acl.aceList, ace.forInheritance = true) →
        acl.StandsForMode node ignoreGid := by
  have pruned : s'.acl id = s.prunedAcl .access id := by
    cases deleted
    exact Function.update_self ..
  obtain rfl : { node with ctime := ts } = node' := by
    cases deleted
    simpa [setNode] using known
  have without : (s'.setAcl id none).acl id = none := Function.update_self ..
  cases stored : s.acl id with
  | none =>
    rw [prunedAcl, stored] at pruned
    refine iff_of_true (fun context request _ _ => ?_) (by simp)
    rw [Bool.eq_iff_iff, access_of_none pruned, access_of_none without]
  | some acl =>
    have kept : s.keptAcl .access id = acl.createExplicitInheritance.removeInheritOnly false := by
      rw [keptAcl, stored]
      rfl
    rw [prunedAcl, stored, kept] at pruned
    dsimp only at pruned
    split at pruned
    next empty =>
      refine iff_of_true (fun context request _ _ => ?_) ?_
      · rw [Bool.eq_iff_iff, access_of_none pruned, access_of_none without]
      · intro other same some
        obtain ⟨ace, member, inherited⟩ := some
        rw [← Option.some.inj same] at member
        rw [left_eq_nil_iff.mp empty ace member] at inherited
        cases inherited
    next left =>
      have some : ∃ ace ∈ acl.aceList, ace.forInheritance = true := by
        by_contra none
        push Not at none
        exact left (left_eq_nil_iff.mpr fun ace member =>
          Bool.eq_false_iff.mpr (none ace member))
      rw [mode_decides_of_inheritOnly pruned
        fun ace => isInheritOnly_of_mem_removeInheritOnly]
      -- neither the masks nor what the mode gives have changed
      refine Iff.trans ?_ (?_ : acl.StandsForMode node ignoreGid ↔ _)
      · exact ⟨fun stands => ⟨stands.owner, stands.member, stands.other⟩,
          fun stands => ⟨stands.owner, stands.member, stands.other⟩⟩
      · exact ⟨fun stands _ same _ => Option.some.inj same ▸ stands, fun all => all acl rfl some⟩

/-! ### A directory with a default list -/

/-- A directory of user 1000 and group 100. -/
def groupDirectory (mode : Mode) (ctime : UInt32) : NodeAttributes :=
  ⟨.directory, mode, 1000, 100, 10, 20, ctime⟩

/-- It has no list yet. -/
def unlistedDirectory (mode : Mode) : Inodes where
  node := fun inode => if inode = 7 then some (groupDirectory mode 30) else none
  acl := fun _ => none

/-- What new files in it are to have: user 3000 may read and write them. -/
def groupDefault : AccessControlList where
  list := [⟨3000, kNamedUser, 6⟩]
  ownerRights := 7
  groupRights := 5
  otherRights := 0
  maskRights := 7

/-- When only the owner has rights, the removal leaves it so. -/
theorem mode_decides_private :
    ∃ s s', (unlistedDirectory 0o700).setPosixAcl .default 7 (groupDirectory 0o700 30) groupDefault
        40 = .ok s ∧
      s.deleteAcl .access 7 (groupDirectory 0o700 40) 50 = .ok s' ∧
      ∀ (context : Context) (request : BitVec 3), context.uid ≠ 0 → context.ignoreGid = false →
        s'.access context 7 (groupDirectory 0o700 50) (request.setWidth 16) =
          (s'.setAcl 7 none).access context 7 (groupDirectory 0o700 50) (request.setWidth 16) := by
  refine ⟨_, _, rfl, rfl, ?_⟩
  refine (mode_decides_iff rfl rfl false).mpr fun acl stored _ => ?_
  obtain rfl := Option.some.inj stored
  exact ⟨by decide, by decide, by decide⟩

/-- A member of the owning group, whom the mode lets read and search the directory. -/
def groupMember : Context where
  ts := 60
  uid := 2000
  groups := [100]
  ignoreGid := false
  mapAll := false
  noMasterPermCheck := false
  getNode := fun inode => .ok inode

/-- With a default list, members of the owning group cannot read the directory that its mode
lets them read. -/
theorem group_member_refused :
    ∃ s s', (unlistedDirectory 0o750).setPosixAcl .default 7 (groupDirectory 0o750 30) groupDefault
        40 = .ok s ∧
      s.deleteAcl .access 7 (groupDirectory 0o750 40) 50 = .ok s' ∧
      s'.access groupMember 7 (groupDirectory 0o750 50) 4 = false ∧
      (s'.setAcl 7 none).access groupMember 7 (groupDirectory 0o750 50) 4 = true :=
  ⟨_, _, rfl, rfl, by decide, by decide⟩

end Inodes

/-! ## Several rights at once -/

/-- The entries of a list decide on each permission of a request by itself. -/
theorem RichACL.checkPermission_or (acl : RichACL) (a b : Mask) (ownerUid ownerGid uid : UInt32)
    (groups : List UInt32) :
    acl.checkPermission (a ||| b) ownerUid ownerGid uid groups =
      (acl.checkPermission a ownerUid ownerGid uid groups &&
        acl.checkPermission b ownerUid ownerGid uid groups) := by
  rw [Bool.eq_iff_iff, Bool.and_eq_true, checkPermission_iff, checkPermission_iff,
    checkPermission_iff, ← forall_and]
  refine forall_congr' fun i => ?_
  rw [BitVec.getLsbD_or, Bool.or_eq_true, or_imp]

theorem convertMode2Mask_or (a b : Mode) :
    convertMode2Mask (a ||| b) = convertMode2Mask a ||| convertMode2Mask b := by
  have bit (n : Mode) (mask : Mask) : (if (a ||| b) &&& n ≠ 0 then mask else 0) =
      (if a &&& n ≠ 0 then mask else 0) ||| (if b &&& n ≠ 0 then mask else 0) := by
    rw [BitVec.and_or_distrib_right]
    by_cases x : a &&& n = 0 <;> by_cases y : b &&& n = 0 <;> simp_all
  unfold convertMode2Mask
  rw [bit, bit, bit]
  ac_rfl

/-- A caller may do two things at once exactly when the caller may do each of them. -/
theorem Inodes.access_or (s : Inodes) (context : Context) (id : InodeId) (node : NodeAttributes)
    (a b : Mode) :
    s.access context id node (a ||| b) =
      (s.access context id node a && s.access context id node b) := by
  have each (m : Mode) : m &&& (a ||| b) = a ||| b ↔ m &&& a = a ∧ m &&& b = b := by
    rw [BitVec.and_or_distrib_left]
    refine ⟨fun eq => ?_, fun both => by rw [both.1, both.2]⟩
    constructor <;> ext i inside <;> have bit := congrArg (·.getLsbD i) eq <;>
      simp only [BitVec.getElem_and, BitVec.getLsbD_or, BitVec.getLsbD_and] at * <;> grind
  unfold access
  split
  · rfl
  cases s.acl id with
  | some acl =>
    dsimp only
    rw [convertMode2Mask_or, BitVec.and_or_distrib_right, checkPermission_or]
  | none =>
    dsimp only
    rw [Bool.eq_iff_iff, Bool.and_eq_true, decide_eq_true_iff, decide_eq_true_iff,
      decide_eq_true_iff]
    exact each _

end LeilFS.Acl
