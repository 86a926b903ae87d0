/-
Module: LeilFS.Acl.ReadBack
Purpose: POSIX lists that are set on a node and read back from the one list that is stored,
  beside the list of the other kind.
Trusted boundary: none
-/
import LeilFS.Acl.PosixRead
import LeilFS.Acl.SetAcl

namespace LeilFS.Acl

open LeilFS.Nodes (InodeId)

open RichACL List Mask

namespace RichACL

/-! ## Entries that are kept -/

/-- Entries that are for access and inherited. -/
def isDouble (ace : Ace) : Bool := !ace.isInheritOnly && ace.isInheritable

theorem has_accessAce (ace : Ace) :
    (accessAce ace).isInheritOnly = false ∧ (accessAce ace).isInheritable = false := by
  have cleared : ∀ flag : BitVec 9, ~~~(Ace.kInheritOnlyAce ||| Ace.kFileInheritAce |||
      Ace.kDirectoryInheritAce) &&& flag = 0 → (accessAce ace).has flag = false := by
    intro flag outside
    unfold Ace.has accessAce
    rw [BitVec.and_assoc, outside]
    simp
  exact ⟨cleared _ (by decide), cleared _ (by decide)⟩

theorem core_accessAce (ace : Ace) : core (accessAce ace) = core ace := by
  unfold core accessAce
  rw [BitVec.and_assoc, show ~~~(Ace.kInheritOnlyAce ||| Ace.kFileInheritAce |||
    Ace.kDirectoryInheritAce) &&& (Ace.kSpecialWho ||| Ace.kIdentifierGroup) =
      Ace.kSpecialWho ||| Ace.kIdentifierGroup from by decide]

/-- A copy that is only inherited. -/
def inheritCopy (ace : Ace) : Ace := { ace with flags := ace.flags ||| Ace.kInheritOnlyAce }

theorem isInheritOnly_inheritCopy (ace : Ace) : (inheritCopy ace).isInheritOnly = true := by
  unfold Ace.isInheritOnly Ace.has inheritCopy
  rw [WordBits.or_and_of_and_eq BitVec.and_self]
  decide

theorem aceList_createExplicitInheritance (acl : RichACL) : acl.createExplicitInheritance.aceList =
      acl.aceList.map (fun ace => if isDouble ace then accessAce ace else ace) ++
        (acl.aceList.filter isDouble).map inheritCopy := rfl

theorem isInheritOnly_ite (ace : Ace) :
    (if isDouble ace then accessAce ace else ace).isInheritOnly = ace.isInheritOnly := by
  split
  next double =>
    unfold isDouble at double
    rw [Bool.and_eq_true, Bool.not_eq_true'] at double
    rw [(has_accessAce ace).1, double.1]
  · rfl

/-- The entries for access of a list, once their inheritance is taken away. -/
theorem aceList_keptForDefault (acl : RichACL) :
    (acl.createExplicitInheritance.removeInheritOnly true).aceList =
      (acl.aceList.filter (!·.isInheritOnly)).map
        fun ace => if isDouble ace then accessAce ace else ace := by
  have copies : ((acl.aceList.filter isDouble).map inheritCopy).filter
      (fun ace => decide (ace.isInheritOnly ≠ true)) = [] := by
    rw [filter_eq_nil_iff]
    intro ace mem
    obtain ⟨old, _, rfl⟩ := mem_map.mp mem
    simp [isInheritOnly_inheritCopy]
  unfold removeInheritOnly
  rw [aceList_createExplicitInheritance]
  dsimp only
  rw [filter_append, copies, append_nil, filter_map]
  congr 1
  refine filter_congr fun ace _ => ?_
  rw [Function.comp_apply, isInheritOnly_ite]
  simp

/-- The entries of a list that are inherited, once they are not for access. -/
theorem aceList_keptForAccess (acl : RichACL) :
    (acl.createExplicitInheritance.removeInheritOnly false).aceList =
      acl.aceList.filter (·.isInheritOnly) ++ (acl.aceList.filter isDouble).map inheritCopy := by
  have copies : ((acl.aceList.filter isDouble).map inheritCopy).filter
      (fun ace => decide (ace.isInheritOnly ≠ false)) =
        (acl.aceList.filter isDouble).map inheritCopy := by
    rw [filter_eq_self]
    intro ace mem
    obtain ⟨old, _, rfl⟩ := mem_map.mp mem
    simp [isInheritOnly_inheritCopy]
  have eq : (fun ace => decide (ace.isInheritOnly ≠ false)) ∘
      (fun ace => if isDouble ace then accessAce ace else ace) = fun ace => ace.isInheritOnly := by
    funext ace
    rw [Function.comp_apply, isInheritOnly_ite]
    simp
  unfold removeInheritOnly
  rw [aceList_createExplicitInheritance]
  rw [filter_append, copies, filter_map, eq]
  rw [map_congr_left (g := id), map_id]
  intro ace mem
  have only := of_mem_filter mem
  rw [if_neg (by simp [isDouble, only])]
  rfl

/-! ## Entries for default lists -/

/-- The entries of the default list. -/
def defaultAces (aces : List Ace) : List Ace :=
  (aces.filter (·.isInheritable)).map fun ace =>
    { ace with flags := ace.flags &&& ~~~Ace.kInheritOnlyAce }

theorem convertToDefaultPosixACL_congr {acl other : RichACL}
    (eq : defaultAces acl.aceList = defaultAces other.aceList) :
    acl.convertToDefaultPosixACL = other.convertToDefaultPosixACL := by
  unfold defaultAces at eq
  unfold convertToDefaultPosixACL
  rw [eq]

theorem defaultAces_append (first second : List Ace) :
    defaultAces (first ++ second) = defaultAces first ++ defaultAces second := by
  unfold defaultAces
  rw [filter_append, map_append]

theorem defaultAces_of_not_inheritable {aces : List Ace}
    (plain : ∀ ace ∈ aces, ace.isInheritable = false) : defaultAces aces = [] := by
  unfold defaultAces
  rw [map_eq_nil_iff, filter_eq_nil_iff]
  intro ace mem
  simp [plain ace mem]

section Appended

variable {posix : AccessControlList} {isDir : Bool}

/-- The entries of an access list are not inherited. -/
theorem isInheritable_shape {ace : Ace}
    (mem : ace ∈ classAces posix isDir ++ denyAces posix isDir ++ [everyoneAce posix isDir]) :
    ace.isInheritable = false ∧ ace.isInheritOnly = false := by
  have special : ∀ mask id, (allowAce Ace.kSpecialWho mask id).isInheritable = false :=
    fun mask id =>
    show decide (Ace.kSpecialWho &&& (Ace.kFileInheritAce ||| Ace.kDirectoryInheritAce) ≠ 0) = false
      by decide
  rcases mem_append.mp mem with inside | last
  · rcases mem_append.mp inside with allowing | denying
    · refine ⟨?_, isInheritOnly_of_mem_classAces _ allowing⟩
      unfold classAces namedAces at allowing
      simp only [mem_append, mem_cons, not_mem_nil, or_false, mem_map] at allowing
      rcases allowing with (rfl | rfl) | ⟨entry, _, rfl⟩
      · exact special _ _
      · exact special _ _
      · unfold Ace.isInheritable Ace.has
        rw [flags_namedAce]
        split <;> decide
    · obtain ⟨entry, _, made⟩ := mem_denyAces.mp denying
      refine ⟨?_, (of_newDeny made).2⟩
      unfold newDeny at made
      split at made
      · simp at made
      rw [← Option.some.inj made]
      unfold Ace.isInheritable Ace.has denyAce Ace.make
      rw [BitVec.and_assoc, show ~~~Ace.kInheritanceFlags &&&
        (Ace.kFileInheritAce ||| Ace.kDirectoryInheritAce) = 0 from by decide]
      simp
  · rw [mem_singleton.mp last]
    exact ⟨special _ _, isInheritOnly_special _ _⟩

/-- Setting the access list of entries that are only inherited keeps them. -/
theorem defaultAces_appendPosixACL (acl : RichACL) (h : posix.Sorted)
    (noAccess : ∀ ace ∈ acl.aceList, ace.isInheritOnly = true) :
    defaultAces (acl.appendPosixACL posix isDir).aceList = defaultAces acl.aceList := by
  cases extended : posix.minimalAcl with
  | true => rw [(appendPosixACL_minimal acl extended).1]
  | false =>
    rw [aceList_appendPosixACL isDir h.namedOnce extended noAccess, shaped,
      append_assoc, append_assoc, ← append_assoc (classAces _ _), defaultAces_append,
      defaultAces_of_not_inheritable fun ace mem => (isInheritable_shape mem).1,
      append_nil]

/-- A list of entries. -/
def ofAces (aces : List Ace) : RichACL := { empty with aceList := aces }

/-- An entry as it is inherited from a default list. -/
def inheritedAce (ace : Ace) : Ace :=
  { ace with flags := (ace.flags ||| defaultFlags) &&& ~~~Ace.kInheritOnlyAce }

theorem isInheritable_or (ace : Ace) :
    ({ ace with flags := ace.flags ||| defaultFlags } : Ace).isInheritable = true := by
  unfold Ace.isInheritable Ace.has
  rw [WordBits.or_and_of_and_eq (by decide)]
  decide

theorem core_inheritedAce (ace : Ace) : core (inheritedAce ace) = core ace := by
  unfold core inheritedAce
  dsimp only
  rw [BitVec.and_assoc, show ~~~Ace.kInheritOnlyAce &&& (Ace.kSpecialWho ||| Ace.kIdentifierGroup) =
    Ace.kSpecialWho ||| Ace.kIdentifierGroup from by decide, BitVec.and_or_distrib_right,
    show defaultFlags &&& (Ace.kSpecialWho ||| Ace.kIdentifierGroup) = 0#9 from by decide,
    BitVec.or_zero]

/-- Entries for access that become inherited stay what they are. -/
theorem accessAces_inherited {aces : List Ace} (access : ∀ ace ∈ aces, ace.isInheritOnly = false) :
    accessAces (aces.map inheritedAce) = accessAces aces := by
  have kept : ∀ ace : Ace, (inheritedAce ace).isInheritOnly = false := by
    intro ace
    unfold Ace.isInheritOnly Ace.has inheritedAce
    rw [BitVec.and_assoc]
    simp
  unfold accessAces
  rw [filter_eq_self.mpr, filter_eq_self.mpr, map_map]
  · exact map_congr_left fun ace _ => core_inheritedAce ace
  · intro ace mem
    rw [access ace mem]
    rfl
  · intro ace mem
    obtain ⟨old, _, rfl⟩ := mem_map.mp mem
    rw [kept old]
    rfl

/-- The default list that is set is the one that is read, with a mask of all rights. -/
theorem convertToDefaultPosixACL_appendDefaultPosixACL {kept : RichACL} (h : posix.Stored)
    (extended : posix.minimalAcl = false)
    (plain : ∀ ace ∈ kept.aceList, ace.isInheritable = false) :
    (kept.appendDefaultPosixACL posix).convertToDefaultPosixACL =
      (true, { posix with maskRights := 7 }) := by
  have made : (empty.appendPosixACL posix true).aceList =
      classAces posix true ++ denyAces posix true ++ [everyoneAce posix true] := by
    rw [aceList_appendPosixACL true h.ordered.namedOnce extended (by simp [empty])]
    rfl
  have inherited : defaultAces (kept.appendDefaultPosixACL posix).aceList =
      (classAces posix true ++ denyAces posix true ++
        [everyoneAce posix true]).map inheritedAce := by
    unfold appendDefaultPosixACL
    dsimp only
    rw [made, defaultAces_append, defaultAces_of_not_inheritable plain]
    unfold defaultAces
    rw [filter_eq_self.mpr, map_map]
    · rfl
    · intro ace mem
      obtain ⟨old, _, rfl⟩ := mem_map.mp mem
      exact isInheritable_or old
  have alike : (ofAces ((classAces posix true ++ denyAces posix true ++
      [everyoneAce posix true]).map inheritedAce)).convertToPosixACL =
        (ofAces ([] ++ classAces posix true ++ denyAces posix true ++
          [everyoneAce posix true])).convertToPosixACL := by
    refine convertToPosixACL_congr ?_ rfl rfl rfl rfl (by simp [ofAces])
    unfold accessOnly ofAces
    rw [nil_append, accessAces_inherited fun ace mem => (isInheritable_shape mem).2]
  have read := @convertToPosixACL_shape
    (ofAces ([] ++ classAces posix true ++ denyAces posix true ++
    [everyoneAce posix true])) [] posix true h rfl (by simp)
      (show decide ((0 : BitVec 16) &&& kWriteThrough ≠ 0) = false by decide)
      (fun masked => absurd masked
        (show ¬ decide ((0 : BitVec 16) &&& kMasked ≠ 0) = true by decide))
  unfold defaultAces at inherited
  unfold convertToDefaultPosixACL
  rw [inherited]
  unfold ofAces at alike read
  dsimp only
  rw [alike, read]
  rfl

/-- A list that only stands for a mode makes no entries, and no default list is read. -/
theorem convertToDefaultPosixACL_of_minimalAcl {kept : RichACL} (minimal : posix.minimalAcl = true)
    (plain : ∀ ace ∈ kept.aceList, ace.isInheritable = false) :
    (kept.appendDefaultPosixACL posix).convertToDefaultPosixACL =
      (false, AccessControlList.empty) := by
  have inherited : defaultAces (kept.appendDefaultPosixACL posix).aceList = [] := by
    unfold appendDefaultPosixACL appendPosixACL
    rw [if_pos minimal, defaultAces_append, defaultAces_of_not_inheritable plain]
    rfl
  unfold defaultAces at inherited
  unfold convertToDefaultPosixACL
  rw [inherited]
  rfl

end Appended

/-! ## Setting the access list beside a default list -/

/-- No entry for access that is inherited stands before one that is only inherited. -/
def InOrder (acl : RichACL) : Prop :=
  acl.aceList.Pairwise fun ace later =>
    ¬ (isDouble ace = true ∧ (later.isInheritOnly && later.isInheritable) = true)

instance (acl : RichACL) : Decidable acl.InOrder :=
  inferInstanceAs (Decidable (List.Pairwise _ _))

/-- Elements of a second kind behind those of a first kind. -/
theorem filter_or_of_pairwise {α : Type} {p q : α → Bool} {xs : List α}
    (order : xs.Pairwise fun x later => ¬ (q x = true ∧ p later = true))
    (apart : ∀ x, p x = true → q x = false) :
    xs.filter (fun x => p x || q x) = xs.filter p ++ xs.filter q := by
  induction xs with
  | nil => rfl
  | cons x xs ih =>
    obtain ⟨first, rest⟩ := pairwise_cons.mp order
    rw [filter_cons, filter_cons, filter_cons, ih rest]
    cases isP : p x with
    | true => simp [apart x isP]
    | false =>
      cases isQ : q x with
      | false => simp
      | true =>
        have none : xs.filter p = [] := by
          rw [filter_eq_nil_iff]
          intro later mem isP
          exact first later mem ⟨isQ, isP⟩
        simp [none]

/-- A copy is inherited as the entry was. -/
theorem isInheritable_inheritCopy (ace : Ace) :
    (inheritCopy ace).isInheritable = ace.isInheritable := by
  unfold Ace.isInheritable Ace.has inheritCopy
  rw [BitVec.and_or_distrib_right, show Ace.kInheritOnlyAce &&&
    (Ace.kFileInheritAce ||| Ace.kDirectoryInheritAce) = 0#9 from by decide, BitVec.or_zero]

theorem cleared_inheritCopy (ace : Ace) : ({ inheritCopy ace with
      flags := (inheritCopy ace).flags &&& ~~~Ace.kInheritOnlyAce } : Ace) =
      { ace with flags := ace.flags &&& ~~~Ace.kInheritOnlyAce } := by
  unfold inheritCopy
  rw [BitVec.and_or_distrib_right, show Ace.kInheritOnlyAce &&& ~~~Ace.kInheritOnlyAce = 0#9 from
    by decide, BitVec.or_zero]

/-- The entries of the default list stay, in their order. -/
theorem defaultAces_kept {acl : RichACL} (order : acl.InOrder) :
    defaultAces (acl.createExplicitInheritance.removeInheritOnly false).aceList =
      defaultAces acl.aceList := by
  have either : ∀ ace : Ace, ace.isInheritable =
      ((ace.isInheritOnly && ace.isInheritable) || isDouble ace) := by
    intro ace
    unfold isDouble
    cases ace.isInheritOnly <;> simp
  have apart : ∀ ace : Ace, (ace.isInheritOnly && ace.isInheritable) = true →
      isDouble ace = false := by
    intro ace only
    unfold isDouble
    rw [Bool.and_eq_true] at only
    rw [only.1]
    rfl
  have copies : defaultAces ((acl.aceList.filter isDouble).map inheritCopy) =
      (acl.aceList.filter isDouble).map
        fun ace => { ace with flags := ace.flags &&& ~~~Ace.kInheritOnlyAce } := by
    unfold defaultAces
    rw [filter_eq_self.mpr, map_map]
    · exact map_congr_left fun ace _ => cleared_inheritCopy ace
    · intro ace mem
      obtain ⟨old, inside, rfl⟩ := mem_map.mp mem
      have double := of_mem_filter inside
      unfold isDouble at double
      rw [Bool.and_eq_true] at double
      rw [isInheritable_inheritCopy, double.2]
  rw [aceList_keptForAccess, defaultAces_append, copies]
  unfold defaultAces
  rw [filter_filter, ← map_append]
  simp only [Bool.and_comm (Ace.isInheritable _)]
  rw [← filter_or_of_pairwise order apart]
  simp only [← either]

-- An entry that is only inherited and denies what the one before it allows comes to stand first.
example :
    let acl := ofAces
      [Ace.make Ace.kAccessAllowedAceType (Ace.kSpecialWho ||| Ace.kFileInheritAce)
        (convertMode2Mask 4) Ace.kGroupSpecialId,
        Ace.make Ace.kAccessDeniedAceType (Ace.kSpecialWho ||| defaultFlags)
        (convertMode2Mask 4) Ace.kEveryoneSpecialId]
    ¬ acl.InOrder ∧ acl.convertToDefaultPosixACL.2.groupRights = 4 ∧
      (acl.createExplicitInheritance.removeInheritOnly
        false).convertToDefaultPosixACL.2.groupRights = 0 := by
  decide

theorem noAccess_kept (acl : RichACL) :
    ∀ ace ∈ (acl.createExplicitInheritance.removeInheritOnly false).aceList,
      ace.isInheritOnly = true := by
  intro ace mem
  simpa using of_mem_filter mem

/-! ## Setting the default list beside an access list -/

/-- The rights of a class in a mode. -/
def modeRights (mode : Mode) (shift : Nat) : Rights := (mode >>> shift &&& (7 : Mode)).setWidth 4

/-- Whether the access list that is read shows the mode of the node: the rights of the group are
those of the mask, where there is one. -/
def ShowsMode (acl : RichACL) (mode : Mode) : Prop :=
  acl.convertToPosixACL.1 = true ∧
    acl.convertToPosixACL.2.ownerRights = modeRights mode 6 ∧
    acl.convertToPosixACL.2.otherRights = modeRights mode 0 ∧
    (if acl.hasGroupEntry then acl.convertToPosixACL.2.maskRights
    else acl.convertToPosixACL.2.groupRights) = modeRights mode 3

instance (acl : RichACL) (mode : Mode) : Decidable (acl.ShowsMode mode) :=
  inferInstanceAs (Decidable (_ ∧ _))

theorem maskRights_convertMode2Mask (mode : Mode) (isDir : Bool) :
    maskRights (convertMode2Mask mode &&& ~~~directoryOnly isDir) = (mode &&& 7).setWidth 4 := by
  have low : convertMode2Mask mode = convertMode2Mask (((mode &&& 7).setWidth 4).setWidth 16) := by
    refine convertMode2Mask_congr ?_
    ext i inside
    interval_cases i <;> simp
  have le : (mode &&& 7).setWidth 4 ≤ (7 : Rights) := by
    rw [BitVec.le_def, BitVec.toNat_setWidth]
    exact (Nat.mod_le _ _).trans Nat.and_le_right
  rw [low]
  exact maskRights_rightsMask isDir le

section SetDefault

variable (acl : RichACL) (posix : AccessControlList) (mode : Mode)

/-- A stored list, with a new default list. -/
def withDefault : RichACL :=
  ((acl.createExplicitInheritance.removeInheritOnly true).appendDefaultPosixACL posix).setMode mode
    true

theorem accessAces_keptForDefault :
    accessAces (acl.createExplicitInheritance.removeInheritOnly true).aceList =
      accessAces acl.aceList := by
  unfold accessAces
  rw [aceList_keptForDefault, filter_map, filter_filter, map_map]
  have eq : ∀ ace : Ace, (((!·.isInheritOnly) ∘ fun ace => if isDouble ace then accessAce ace
      else ace) ace && !ace.isInheritOnly) = !ace.isInheritOnly := by
    intro ace
    rw [Function.comp_apply, isInheritOnly_ite, Bool.and_self]
  simp only [eq]
  refine map_congr_left fun ace _ => ?_
  rw [Function.comp_apply]
  split
  · exact core_accessAce ace
  · rfl

/-- The entries for access stay. -/
theorem accessOnly_withDefault : (acl.withDefault posix mode).accessOnly = acl.accessOnly := by
  have added : accessAces ((empty.appendPosixACL posix true).aceList.map
      fun ace => { ace with flags := ace.flags ||| defaultFlags }) = [] := by
    unfold accessAces
    rw [map_eq_nil_iff, filter_eq_nil_iff]
    intro ace mem
    obtain ⟨old, _, rfl⟩ := mem_map.mp mem
    have only : ({ old with flags := old.flags ||| defaultFlags } : Ace).isInheritOnly = true := by
      unfold Ace.isInheritOnly Ace.has
      rw [WordBits.or_and_of_and_eq (by decide)]
      decide
    rw [only]
    decide
  have split : ∀ first second, accessAces (first ++ second) =
      accessAces first ++ accessAces second := by
    intro first second
    unfold accessAces
    rw [filter_append, map_append]
  unfold accessOnly withDefault setMode appendDefaultPosixACL
  rw [split, accessAces_keptForDefault, added, append_nil]

/-- What is read as access list once a default list is set. -/
theorem convertToPosixACL_withDefault : (acl.withDefault posix mode).convertToPosixACL =
      (true, ⟨acl.namedEntries, modeRights mode 6,
        if acl.hasGroupEntry then maskRights (acl.allowedToWho (Ace.special Ace.kGroupSpecialId))
        else modeRights mode 3,
        modeRights mode 0, if acl.hasGroupEntry then modeRights mode 3 else kMaskUnset⟩) := by
  have eq := accessOnly_withDefault acl posix mode
  have flags : (acl.withDefault posix mode).flags =
      (acl.createExplicitInheritance.removeInheritOnly true).flags |||
        (kMasked ||| kWriteThrough) := rfl
  have masked : (acl.withDefault posix mode).has kMasked = true := by
    unfold has
    rw [flags, WordBits.or_and_of_and_eq (by decide)]
    decide
  have through : (acl.withDefault posix mode).has kWriteThrough = true := by
    unfold has
    rw [flags, WordBits.or_and_of_and_eq (by decide)]
    decide
  have groupEntry : (acl.withDefault posix mode).hasGroupEntry = acl.hasGroupEntry := by
    rw [← hasGroupEntry_accessOnly, eq, hasGroupEntry_accessOnly]
  have allowed : (acl.withDefault posix mode).allowedToWho (Ace.special Ace.kGroupSpecialId) =
      acl.allowedToWho (Ace.special Ace.kGroupSpecialId) := by
    rw [← allowedToWho_accessOnly, eq, allowedToWho_accessOnly]
  have owner : maskRights (acl.withDefault posix mode).ownerMask = modeRights mode 6 :=
    maskRights_convertMode2Mask _ true
  have group : maskRights (acl.withDefault posix mode).groupMask = modeRights mode 3 :=
    maskRights_convertMode2Mask _ true
  have other : maskRights (acl.withDefault posix mode).otherMask = modeRights mode 0 := by
    exact maskRights_convertMode2Mask mode true
  rw [convertToPosixACL_eq, namedEntries_congr eq]
  unfold ownerAllowed groupAllowed otherAllowed
  rw [masked, through, groupEntry, allowed]
  simp only [if_true, BitVec.and_self, owner, other]
  cases acl.hasGroupEntry with
  | true => simp [group]
  | false => simp [group]

/-- Setting a default list leaves the access list that is read exactly when it shows the mode. -/
theorem convertToPosixACL_withDefault_eq_iff :
    (acl.withDefault posix mode).convertToPosixACL = acl.convertToPosixACL ↔
      acl.ShowsMode mode := by
  rw [convertToPosixACL_withDefault]
  unfold ShowsMode
  rw [convertToPosixACL_eq acl]
  by_cases none : ¬ acl.has kMasked = true ∧ acl.aceList = []
  · simp [none]
  rw [if_neg none]
  unfold groupAllowed
  cases groupEntry : acl.hasGroupEntry with
  | true =>
    simp only [if_true, not_true_eq_false, and_false, if_false, Prod.mk.injEq,
      AccessControlList.mk.injEq, true_and]
    constructor
    · rintro ⟨owner, other, mask⟩
      exact ⟨owner.symm, other.symm, mask.symm⟩
    · rintro ⟨owner, other, mask⟩
      exact ⟨owner.symm, other.symm, mask.symm⟩
  | false =>
    simp only [Bool.false_eq_true, if_false, and_false, Prod.mk.injEq,
      AccessControlList.mk.injEq, true_and, and_true]
    constructor
    · rintro ⟨owner, group, other⟩
      exact ⟨owner.symm, other.symm, group.symm⟩
    · rintro ⟨owner, other, group⟩
      exact ⟨owner.symm, group.symm, other.symm⟩

end SetDefault

end RichACL

/-! ## Reading back -/

namespace Inodes

variable {s : Inodes} {id : InodeId} {node : NodeAttributes} {posix : AccessControlList}
  {ts : UInt32}

theorem noAccess_keptAcl (s : Inodes) (id : InodeId) :
    ∀ ace ∈ (s.keptAcl .access id).aceList, ace.isInheritOnly = true := by
  unfold keptAcl
  cases s.acl id with
  | none => simp [empty]
  | some acl => exact acl.noAccess_kept

theorem isInheritable_keptAcl (s : Inodes) (id : InodeId) :
    ∀ ace ∈ (s.keptAcl .default id).aceList, ace.isInheritable = false := by
  unfold keptAcl
  cases s.acl id with
  | none => simp [empty]
  | some acl =>
    intro ace mem
    rw [decide_eq_true rfl, aceList_keptForDefault, mem_map] at mem
    obtain ⟨old, inside, rfl⟩ := mem
    have access := of_mem_filter inside
    split
    · exact (has_accessAce old).2
    next single =>
      unfold isDouble at single
      simpa [access] using single

/-- The access list that is set is read back, and the default list is the one before. -/
theorem setPosixAcl_access (h : posix.Stored) :
    ∃ s', s.setPosixAcl .access id node posix ts = .ok s' ∧ s'.accessList id = (true, posix) ∧
      ((∀ acl ∈ s.acl id, acl.InOrder) → s'.defaultList id = s.defaultList id) := by
  refine ⟨_, rfl, ?_, ?_⟩
  · unfold accessList setNode setAcl
    dsimp only
    rw [Function.update_self]
    exact convertToPosixACL_appendPosixACL _ h (s.noAccess_keptAcl id)
  · intro order
    have kept := convertToDefaultPosixACL_congr
      (@RichACL.defaultAces_appendPosixACL posix node.isDir _ h.ordered (s.noAccess_keptAcl id))
    unfold defaultList setNode setAcl
    dsimp only
    rw [Function.update_self]
    dsimp only
    rw [kept]
    unfold keptAcl
    cases known : s.acl id with
    | none => rfl
    | some acl => exact convertToDefaultPosixACL_congr (defaultAces_kept (order acl known))

/-- The default list that is set is read back with a mask of all rights unless it only stands for
a mode, and the access list is the one before where it shows the mode of the directory. -/
theorem setPosixAcl_default (h : posix.Stored) (isDir : node.isDir = true) :
    ∃ s', s.setPosixAcl .default id node posix ts = .ok s' ∧
      s'.defaultList id = (if posix.minimalAcl then (false, AccessControlList.empty)
        else (true, { posix with maskRights := 7 })) ∧
      (s'.accessList id = s.accessList id ↔
        ∃ acl, s.acl id = some acl ∧ acl.ShowsMode node.mode) := by
  refine ⟨(s.setAcl id (some
    (((s.keptAcl .default id).appendDefaultPosixACL posix).setMode node.mode true))).setNode id
      { node with ctime := ts }, ?_, ?_, ?_⟩
  · simp [setPosixAcl, isDir]
  · unfold defaultList setNode setAcl
    dsimp only
    rw [Function.update_self]
    refine (convertToDefaultPosixACL_congr rfl).trans ?_
    cases minimal : posix.minimalAcl with
    | true => exact convertToDefaultPosixACL_of_minimalAcl minimal (s.isInheritable_keptAcl id)
    | false =>
      exact convertToDefaultPosixACL_appendDefaultPosixACL h minimal (s.isInheritable_keptAcl id)
  · unfold accessList setNode setAcl keptAcl
    dsimp only
    rw [Function.update_self]
    cases known : s.acl id with
    | none =>
      have found := convertToPosixACL_withDefault empty posix node.mode
      simp only [reduceCtorEq, false_and, exists_false, iff_false]
      intro eq
      have first := congrArg Prod.fst (found.symm.trans eq)
      exact Bool.noConfusion (show true = false from first)
    | some acl =>
      simp only [Option.some.injEq, exists_eq_left']
      exact acl.convertToPosixACL_withDefault_eq_iff posix node.mode

/-- When the default list that is read is the one that was set. -/
theorem defaultList_eq_iff (posix : AccessControlList) :
    (if posix.minimalAcl then (false, AccessControlList.empty)
      else (true, { posix with maskRights := 7 })) = (true, posix) ↔
        posix.minimalAcl = false ∧ posix.maskRights = 7 := by
  cases minimal : posix.minimalAcl with
  | true => simp
  | false =>
    obtain ⟨list, owner, group, other, mask⟩ := posix
    simp [eq_comm]

/-- All rights for the owner, and for the group and user 1001 as far as a mask lets them. -/
def teamBytes : List UInt8 :=
  [2, 0, 0, 0] ++
    [0x01, 0, 7, 0, 255, 255, 255, 255] ++
    [0x02, 0, 4, 0, 0xe9, 3, 0, 0] ++
    [0x04, 0, 7, 0, 255, 255, 255, 255] ++
    [0x10, 0, 5, 0, 255, 255, 255, 255] ++
    [0x20, 0, 0, 0, 255, 255, 255, 255]

def teamRead : AccessControlList := ⟨[⟨1001, kNamedUser, 4⟩], 7, 7, 0, 5⟩

theorem extract_teamBytes : extractAclObject teamBytes = some teamRead := by decide

def teamDirectory : NodeAttributes := ⟨.directory, 0o750, 1000, 100, 10, 20, 30⟩

/-- The directory with the list of the team as its access list. -/
def teamInodes : Inodes where
  node := fun inode => if inode = 7 then some teamDirectory else none
  acl := fun inode => if inode = 7 then some (RichACL.empty.appendPosixACL teamRead true) else none

end Inodes

end LeilFS.Acl
