/-
Module: LeilFS.Acl.ListsApart
Purpose: When setting or removing one kind of POSIX list of a directory leaves the other kind as
  it was: the decisions on access, and what new nodes inherit.
Trusted boundary: none
-/
import LeilFS.Acl.DeleteAcl
import LeilFS.Acl.ReadBack

namespace LeilFS.Acl

open LeilFS.Nodes (InodeId)

namespace RichACL

/-! ## Decisions -/

/-- Only the entries for access take part in a check. -/
theorem checkAces_accessAces (acl : RichACL) (all : List Ace) (ownerUid ownerGid uid : UInt32)
    (groups : List UInt32) (aces : List Ace) (check : Check) :
    { acl with aceList := all }.checkAces (aceMatch ownerUid ownerGid uid groups) aces check =
      acl.checkAces (aceMatch ownerUid ownerGid uid groups) (accessAces aces) check := by
  unfold accessAces
  induction aces generalizing check with
  | nil => rfl
  | cons ace aces ih =>
    cases only : ace.isInheritOnly with
    | true =>
      rw [List.filter_cons_of_neg (by simp [only]), ← ih, checkAces,
        if_pos (by simp [aceMatch, only])]
    | false =>
      have eq := Ace.aceMatch_congr (identity_core ace) ((isInheritOnly_core ace).trans only.symm)
        ownerUid ownerGid uid groups
      rw [List.filter_cons_of_pos (by simp [only]), List.map_cons, checkAces, checkAces, eq]
      simp only [ih]
      rfl

variable {acl : RichACL}

theorem checkPermission_of_accessAces {aces : List Ace}
    (eq : accessAces aces = accessAces acl.aceList) :
    { acl with aceList := aces }.checkPermission = acl.checkPermission := by
  funext asked ownerUid ownerGid uid groups
  have old := acl.checkAces_accessAces acl.aceList ownerUid ownerGid uid groups acl.aceList
  have new := acl.checkAces_accessAces aces ownerUid ownerGid uid groups aces
  unfold checkPermission
  simp only [new, old, eq]
  rfl

/-! ## What is inherited -/

/-- An entry that is not for inheritance only is inherited alike. -/
theorem inherit_cleared (ace : Ace) :
    let cleared := { ace with flags := ace.flags &&& ~~~Ace.kInheritOnlyAce }
    (cleared.inheritsToDirectory = ace.inheritsToDirectory ∧
      (ace.inheritsToDirectory = true → ace.isInheritable = true) ∧
      inheritToDirectory cleared = inheritToDirectory ace) ∧
    cleared.has Ace.kFileInheritAce = ace.has Ace.kFileInheritAce ∧
      (ace.has Ace.kFileInheritAce = true → ace.isInheritable = true) ∧
      inheritToFile cleared = inheritToFile ace := by
  have all : ∀ flags : BitVec 9, let ace : Ace := ⟨0, flags, 0, 0⟩
      let cleared := { ace with flags := flags &&& ~~~Ace.kInheritOnlyAce }
      (cleared.inheritsToDirectory = ace.inheritsToDirectory ∧
        (ace.inheritsToDirectory = true → ace.isInheritable = true) ∧
        (inheritToDirectory cleared).flags = (inheritToDirectory ace).flags) ∧
      cleared.has Ace.kFileInheritAce = ace.has Ace.kFileInheritAce ∧
        (ace.has Ace.kFileInheritAce = true → ace.isInheritable = true) ∧
        (inheritToFile cleared).flags = (inheritToFile ace).flags := by
    decide
  obtain ⟨⟨eq, inherited, flags⟩, rest, inherited', flags'⟩ := all ace.flags
  exact ⟨⟨eq, inherited, by simpa [inheritToDirectory, Ace.has] using flags⟩, rest, inherited',
    by simpa [inheritToFile, Ace.bits] using flags'⟩

/-- What new nodes inherit depends on the entries of the default list and on one flag. -/
theorem aceList_inherit_congr {other : RichACL}
    (eq : defaultAces acl.aceList = defaultAces other.aceList)
    (flag : acl.has kAutoInherit = other.has kAutoInherit) (isDir : Bool) :
    (acl.inherit isDir).aceList = (other.inherit isDir).aceList := by
  have kept {picked : Ace → Bool} {inherited : Ace → Ace} (aces : List Ace)
      (alike : ∀ ace : Ace,
        let cleared := { ace with flags := ace.flags &&& ~~~Ace.kInheritOnlyAce }
        picked cleared = picked ace ∧ (picked ace = true → ace.isInheritable = true) ∧
          inherited cleared = inherited ace) :
      ((defaultAces aces).filter picked).map inherited = (aces.filter picked).map inherited := by
    unfold defaultAces
    induction aces with
    | nil => rfl
    | cons ace aces ih => grind
  unfold inherit
  rw [flag, ← kept acl.aceList fun ace => (inherit_cleared ace).1, ← kept acl.aceList fun ace =>
    (inherit_cleared ace).2, eq, kept _ fun ace => (inherit_cleared ace).1, kept _ fun ace =>
    (inherit_cleared ace).2]

end RichACL

namespace Inodes

/-- The entries that a new node in a directory inherits. -/
def inheritedAces (s : Inodes) (id : InodeId) (isDir : Bool) : List Ace :=
  match s.acl id with
  | some acl => (acl.inherit isDir).aceList
  | none => []

variable {s : Inodes} {id : InodeId} {node : NodeAttributes} {acl : RichACL}

/-- The decisions on access are those of the list before. -/
theorem access_of_accessAces (stored : s.acl id = some acl) {s' : Inodes} (aces : List Ace)
    (stored' : s'.acl id = some { acl with aceList := aces })
    (eq : RichACL.accessAces aces = RichACL.accessAces acl.aceList) (ts : UInt32)
    (context : Context) (modeMask : Mode) :
    s'.access context id { node with ctime := ts } modeMask =
      s.access context id node modeMask := by
  unfold access
  rw [stored, stored']
  dsimp only
  rw [RichACL.checkPermission_of_accessAces eq]
  rfl

/-- The kinds are apart, for a default list that is set when the stored list has the masks of the
mode and lets them decide, for one that is removed when an entry for access is left, and for access
lists when no entry that is both comes before one that is only inherited and the list is not of
those that mark what is inherited. -/
theorem lists_apart (isDir : node.isDir = true) (stored : s.acl id = some acl)
    {posix : AccessControlList} (sorted : posix.Sorted) (ts : UInt32) :
    (acl.setMode node.mode true = acl →
      ∃ s', s.setPosixAcl .default id node posix ts = .ok s' ∧ ∀ context modeMask,
        s'.access context id { node with ctime := ts } modeMask =
          s.access context id node modeMask) ∧
    ((∃ ace ∈ acl.aceList, ace.isInheritOnly = false) →
      ∃ s', s.deleteAcl .default id node ts = .ok s' ∧ ∀ context modeMask,
        s'.access context id { node with ctime := ts } modeMask =
          s.access context id node modeMask) ∧
    (acl.InOrder →
      (acl.has RichACL.kAutoInherit = false →
        ∃ s', s.setPosixAcl .access id node posix ts = .ok s' ∧ ∀ isDir,
          s'.inheritedAces id isDir = s.inheritedAces id isDir) ∧
      ∃ s', s.deleteAcl .access id node ts = .ok s' ∧ ∀ isDir,
        s'.inheritedAces id isDir = s.inheritedAces id isDir) := by
  have kept : s.keptAcl .default id = acl.createExplicitInheritance.removeInheritOnly true ∧
      s.keptAcl .access id = acl.createExplicitInheritance.removeInheritOnly false := by
    rw [keptAcl, keptAcl, stored]
    exact ⟨rfl, rfl⟩
  refine ⟨fun synced => ?_, ?_, fun order => ?_⟩
  · refine ⟨_, if_neg (by simp [isDir]), access_of_accessAces stored
      (acl.withDefault posix node.mode).aceList ?_
      (congrArg RichACL.aceList (acl.accessOnly_withDefault posix node.mode)) ts⟩
    change Function.update s.acl id _ id = _
    rw [Function.update_self, kept.1]
    exact congrArg (fun list : RichACL =>
      some { list with aceList := (acl.withDefault posix node.mode).aceList }) synced
  · rintro ⟨ace, member, access⟩
    have same := acl.accessAces_keptForDefault
    refine ⟨_, if_neg (by simp [isDir]), access_of_accessAces stored _ ?_ same ts⟩
    change Function.update s.acl id _ id = _
    rw [Function.update_self, prunedAcl, stored, kept.1]
    refine if_neg fun none => ?_
    have here : RichACL.core ace ∈ RichACL.accessAces acl.aceList :=
      List.mem_map_of_mem (List.mem_filter.mpr ⟨member, by simp [access]⟩)
    rw [← same, none] at here
    cases here
  · have same := RichACL.defaultAces_kept order
    refine ⟨fun manual => ⟨_, rfl, fun isDir => ?_⟩, _, rfl, fun isDir => ?_⟩
    · unfold inheritedAces
      dsimp only [setNode, setAcl]
      rw [Function.update_self, stored, kept.2]
      refine RichACL.aceList_inherit_congr ((RichACL.defaultAces_appendPosixACL _ sorted
        (RichACL.noAccess_kept acl)).trans same) ?_ isDir
      rw [manual]
      unfold RichACL.appendPosixACL RichACL.has
      split_ifs <;> simp [RichACL.kMasked, RichACL.kWriteThrough, RichACL.kAutoInherit]
    · have inherited := RichACL.aceList_inherit_congr same rfl isDir
      unfold inheritedAces
      dsimp only [setNode, setAcl]
      rw [Function.update_self, prunedAcl, stored, kept.2]
      dsimp only
      rw [← inherited]
      by_cases none : (acl.createExplicitInheritance.removeInheritOnly false).aceList = []
      · rw [if_pos none]
        simp only [RichACL.inherit, none, List.filter_nil, List.map_nil, ite_self]
        split <;> rfl
      · rw [if_neg none]

/-- A directory of user 1000 with a list. -/
def privateDirectory (acl : RichACL) : Inodes :=
  ⟨fun _ => some (groupDirectory 0o700 30), fun _ => some acl⟩

/-- User 1001 may read the directory and the files that are made in it.  The masks are those of
mode 0700, and no flag lets them decide. -/
def readable : RichACL := ⟨convertMode2Mask 7, 0, 0, 0, [⟨0, Ace.kFileInheritAce, 1, 1001⟩]⟩

theorem lists_apart_private :
    ∃ s', (privateDirectory (readable.setMode 0o700 true)).setPosixAcl .default 7
        (groupDirectory 0o700 30) groupDefault 40 = .ok s' ∧ ∀ context modeMask,
      s'.access context 7 (groupDirectory 0o700 40) modeMask =
        (privateDirectory (readable.setMode 0o700 true)).access context 7
          (groupDirectory 0o700 30) modeMask :=
  (lists_apart rfl rfl (by simp [AccessControlList.Sorted, groupDefault]) 40).1 (by decide)

/-- The list shows the mode of the directory.  A default list takes reading from user 1001; and
without the access list, files inherit their entries in another order. -/
theorem lists_not_apart :
    readable.getMode = (groupDirectory 0o700 30).mode ∧
    (∃ s', (privateDirectory readable).setPosixAcl .default 7 (groupDirectory 0o700 30) groupDefault
        40 = .ok s' ∧
      s'.access { groupMember with uid := 1001 } 7 (groupDirectory 0o700 40) 4 = false ∧
      (privateDirectory readable).access { groupMember with uid := 1001 } 7
        (groupDirectory 0o700 30) 4 = true) ∧
    let both := privateDirectory (readable.insert
      ⟨0, Ace.kFileInheritAce ||| Ace.kInheritOnlyAce, 1, 1002⟩)
    ∃ s', both.deleteAcl .access 7 (groupDirectory 0o700 30) 40 = .ok s' ∧
      s'.inheritedAces 7 false ≠ both.inheritedAces 7 false :=
  ⟨by decide, ⟨_, rfl, by decide, by decide⟩, _, rfl, by decide⟩

end Inodes

end LeilFS.Acl
