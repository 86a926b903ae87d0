/-
Module: LeilFS.Acl.PosixRead
Purpose: The POSIX list that is read from a rich list: what the conversion depends on, and that
  it finds the POSIX list again that a rich list was made from.
Trusted boundary: none
-/
import LeilFS.Acl.AclConverter
import LeilFS.Acl.PosixShape

namespace LeilFS.Acl

open AccessControlList Ace List Mask

namespace RichACL

/-! ## Rights and modes -/

/-- The rights of the permissions of rights. -/
theorem maskRights_rightsMask (isDir : Bool) {rights : Rights} (le : rights ≤ 7) :
    maskRights (rightsMask isDir rights) = rights := by
  revert rights
  cases isDir <;> decide

/-- The lowest bits of a mode are rights. -/
theorem convertMask2Mode_eq (mask : Mask) :
    maskRights mask ≤ 7 ∧ convertMask2Mode mask = (maskRights mask).setWidth 16 := by
  unfold maskRights convertMask2Mode
  split_ifs <;> decide

/-- A mode of the rights of three classes. -/
def joinModes (owner group other : Rights) : Mode :=
  (owner.setWidth 16 : Mode) <<< 6 ||| (group.setWidth 16 : Mode) <<< 3 |||
    (other.setWidth 16 : Mode)

theorem setMode_joinModes {owner group other : Rights} (smallOwner : owner ≤ 7)
    (smallGroup : group ≤ 7) (smallOther : other ≤ 7) :
    AccessControlList.empty.setMode (joinModes owner group other) =
      ⟨[], owner, group, other, kMaskUnset⟩ := by
  revert owner group other
  decide +kernel

/-! ## Entries of named users and groups -/

section Named

variable {acl : RichACL} {posix : AccessControlList} {isDir : Bool}

/-- Entries that are only inherited, or of a class, are passed over. -/
theorem addNamed_of_special {ace : Ace}
    (special : ace.isInheritOnly = true ∨ ace.has Ace.kSpecialWho = true) :
    acl.addNamed posix ace = posix := by
  unfold addNamed isUnixUser isUnixGroup
  rcases special with only | special
  · rw [if_pos only]
  · simp [special]

theorem foldl_addNamed_of_special {aces : List Ace}
    (special : ∀ ace ∈ aces, ace.isInheritOnly = true ∨ ace.has Ace.kSpecialWho = true) :
    aces.foldl acl.addNamed posix = posix := by
  refine foldlRecOn (motive := (· = posix)) aces acl.addNamed rfl fun _ eq ace mem => ?_
  rw [eq, addNamed_of_special (special ace mem)]

/-- An entry of a named user or group adds what its name is allowed, unless there is one. -/
theorem addNamed_of_identity {ace : Ace} {entry : Entry} (isNamed : entry.isNamed = true)
    (eq : ace.identity = (namedAce isDir entry).identity) (access : ace.isInheritOnly = false) :
    acl.addNamed posix ace =
      if (posix.findNamed entry.type entry.id).isSome then posix
      else posix.setNamed entry.type entry.id (maskRights (acl.allowedToWho ace)) := by
  have special := has_congr eq (show _ &&& Ace.kSpecialWho = _ by decide)
  have group := has_congr eq (show _ &&& Ace.kIdentifierGroup = _ by decide)
  rw [has_special_namedAce] at special
  rw [has_group_namedAce] at group
  have id : ace.id = entry.id := congrArg Prod.snd eq
  have types : entry.type = kNamedUser ∨ entry.type = kNamedGroup := by
    simpa [Entry.isNamed] using isNamed
  have add : (if (posix.getEntry entry.type entry.id).type ≠ kInvalid then posix
      else posix.setEntry entry.type entry.id (maskRights (acl.allowedToWho ace))) =
        if (posix.findNamed entry.type entry.id).isSome then posix
        else posix.setNamed entry.type entry.id (maskRights (acl.allowedToWho ace)) := by
    unfold getEntry setEntry
    rw [if_pos types, if_pos types]
    cases found : posix.findNamed entry.type entry.id with
    | none => simp
    | some old =>
      have sameType : old.type = entry.type := by
        unfold findNamed at found
        rw [Option.filter_eq_some_iff, Bool.and_eq_true, decide_eq_true_iff] at found
        exact found.2.1
      have valid : old.type ≠ kInvalid := by
        rw [sameType]
        rcases types with user | group
        · rw [user]; decide
        · rw [group]; decide
      simp [valid]
  rw [← add]
  unfold addNamed isUnixUser isUnixGroup
  rw [access, special, group, id]
  rcases types with user | group
  · simp [user]
  · simp [group, show kNamedGroup ≠ kNamedUser by decide]

/-- Entries of names that are there already change nothing. -/
theorem foldl_addNamed_of_known {aces : List Ace}
    (known : ∀ ace ∈ aces, (ace.isInheritOnly = true ∨ ace.has Ace.kSpecialWho = true) ∨
      ∃ entry : Entry, entry.isNamed = true ∧ ace.identity = (namedAce isDir entry).identity ∧
        ace.isInheritOnly = false ∧ (posix.findNamed entry.type entry.id).isSome = true) :
    aces.foldl acl.addNamed posix = posix := by
  refine foldlRecOn (motive := (· = posix)) aces acl.addNamed rfl fun _ prev ace mem => ?_
  rw [prev]
  rcases known ace mem with special | ⟨entry, isNamed, eq, access, found⟩
  · exact addNamed_of_special special
  · rw [addNamed_of_identity isNamed eq access, if_pos found]

/-- Behind all entries of a list, a new one goes to the end. -/
theorem setNamed_of_last {entry : Entry} (last : ∀ old ∈ posix.list, old.key < entry.key)
    (lt : posix.list.length < maxSize) : posix.findNamed entry.type entry.id = none ∧
      posix.setNamed entry.type entry.id entry.accessRights =
        { posix with list := posix.list ++ [entry] } := by
  have prev : ∀ old ∈ posix.list, decide (old.key < Entry.place entry.type entry.id) = true :=
    fun old mem => decide_eq_true (last old mem)
  have place : posix.fromPlace entry.type entry.id = [] := dropWhile_eq_nil_iff.mpr prev
  have below : posix.below entry.type entry.id = posix.list := takeWhile_eq_self_iff.mpr prev
  constructor
  · unfold findNamed
    rw [place]
    rfl
  · unfold setNamed
    rw [place, below]
    rw [if_pos lt]

/-- The entries of named users and groups are found again, one after the other. -/
theorem foldl_addNamed_named {entries : List Entry}
    (sorted : entries.Pairwise fun entry later => entry.key < later.key)
    (isNamed : ∀ entry ∈ entries, entry.isNamed = true) (le : entries.length ≤ maxSize)
    (rights : ∀ entry ∈ entries,
      maskRights (acl.allowedToWho (namedAce isDir entry)) = entry.accessRights) :
    (entries.map (namedAce isDir)).foldl acl.addNamed AccessControlList.empty =
      { AccessControlList.empty with list := entries } := by
  induction entries using reverseRecOn with
  | nil => rfl
  | append_singleton entries entry ih =>
    obtain ⟨prev, -, last⟩ := pairwise_append.mp sorted
    rw [length_append, length_singleton] at le
    rw [map_append, foldl_append, ih prev
      (fun old mem => isNamed old (mem_append_left _ mem)) (by omega)
      fun old mem => rights old (mem_append_left _ mem)]
    obtain ⟨unknown, added⟩ := @setNamed_of_last
      { AccessControlList.empty with list := entries } entry
      (fun old mem => last old mem entry mem_cons_self) (Nat.lt_of_succ_le le)
    rw [map_singleton, foldl_cons, foldl_nil,
      addNamed_of_identity (isNamed entry (by simp)) rfl (isInheritOnly_namedAce _ _),
      unknown, rights entry (by simp), added]
    rfl

end Named

/-! ## What the conversion reads -/

theorem posixMode_eq (owner group other : Mask) :
    convertMask2Mode owner <<< 6 ||| convertMask2Mode group <<< 3 ||| convertMask2Mode other =
      joinModes (maskRights owner) (maskRights group) (maskRights other) := by
  rw [(convertMask2Mode_eq owner).2, (convertMask2Mode_eq group).2, (convertMask2Mode_eq other).2]
  rfl

/-- An entry without the flags of its inheritance. -/
def core (ace : Ace) : Ace :=
  { ace with flags := ace.flags &&& (Ace.kSpecialWho ||| Ace.kIdentifierGroup) }

/-- The entries for access, without the flags of their inheritance. -/
def accessAces (aces : List Ace) : List Ace := (aces.filter (!·.isInheritOnly)).map core

theorem identity_core (ace : Ace) : (core ace).identity = ace.identity := by
  unfold core identity
  rw [BitVec.and_assoc, BitVec.and_self]

theorem isInheritOnly_core (ace : Ace) : (core ace).isInheritOnly = false := by
  unfold core Ace.isInheritOnly Ace.has
  rw [BitVec.and_assoc, show (Ace.kSpecialWho ||| Ace.kIdentifierGroup) &&& Ace.kInheritOnlyAce = 0
    from by decide]
  simp

theorem isGroup_core (ace : Ace) : (core ace).isGroup = ace.isGroup := by
  unfold isGroup
  rw [has_congr (identity_core ace) (by decide)]
  rfl

section Core

variable {acl : RichACL}

/-- Only whom an entry names matters for what it is allowed. -/
theorem allowedToWho_congr (acl : RichACL) {who other : Ace} (eq : who.identity = other.identity) :
    acl.allowedToWho who = acl.allowedToWho other := by
  have names : ∀ ace : Ace, ace.isSameIdentifier who = ace.isSameIdentifier other := by
    intro ace
    rw [Bool.eq_iff_iff, isSameIdentifier_iff, isSameIdentifier_iff, eq]
  unfold allowedToWho
  simp only [names]

/-- The entries of a list for access, and nothing else. -/
def accessOnly (acl : RichACL) : RichACL := { empty with aceList := accessAces acl.aceList }

theorem allowedToWho_accessOnly (acl : RichACL) (who : Ace) :
    acl.accessOnly.allowedToWho who = acl.allowedToWho who := by
  unfold allowedToWho accessOnly accessAces
  induction acl.aceList with
  | nil => rfl
  | cons ace aces ih =>
    rw [filter_cons, foldr_cons]
    cases only : ace.isInheritOnly with
    | true => simpa [only] using ih
    | false =>
      have names : (core ace).isSameIdentifier who = ace.isSameIdentifier who := by
        rw [Bool.eq_iff_iff, isSameIdentifier_iff, isSameIdentifier_iff, identity_core]
      have applied : ∀ allowed, applyAce (core ace) allowed = applyAce ace allowed := fun _ => rfl
      simp only [Bool.not_false, if_true, map_cons, foldr_cons, isInheritOnly_core,
        names, isEveryone_congr (identity_core ace), applied, ih]

theorem hasGroupEntry_accessOnly (acl : RichACL) :
    acl.accessOnly.hasGroupEntry = acl.hasGroupEntry := by
  unfold hasGroupEntry accessOnly accessAces
  induction acl.aceList with
  | nil => rfl
  | cons ace aces ih =>
    rw [filter_cons, any_cons]
    cases only : ace.isInheritOnly with
    | true => simpa [only] using ih
    | false => simp only [Bool.not_false, if_true, map_cons, any_cons, isInheritOnly_core,
        isGroup_core, ih]

/-- What is added for an entry depends on the entries only. -/
theorem addNamed_accessOnly (acl : RichACL) (posix : AccessControlList) {ace : Ace}
    (access : ace.isInheritOnly = false) :
    acl.accessOnly.addNamed posix (core ace) = acl.addNamed posix ace := by
  have special := has_congr (identity_core ace) (show _ &&& Ace.kSpecialWho = _ by decide)
  have group := has_congr (identity_core ace) (show _ &&& Ace.kIdentifierGroup = _ by decide)
  have allowed : acl.accessOnly.allowedToWho (core ace) = acl.allowedToWho ace :=
    (allowedToWho_accessOnly acl _).trans (acl.allowedToWho_congr (identity_core ace))
  unfold addNamed isUnixUser isUnixGroup
  rw [special, group, allowed, access, isInheritOnly_core]
  rfl

theorem foldl_addNamed_accessOnly (acl : RichACL) (posix : AccessControlList) (aces : List Ace) :
    (accessAces aces).foldl acl.accessOnly.addNamed posix = aces.foldl acl.addNamed posix := by
  induction aces generalizing posix with
  | nil => rfl
  | cons ace aces ih =>
    cases only : ace.isInheritOnly with
    | true =>
      have passed : accessAces (ace :: aces) = accessAces aces := by
        simp [accessAces, only]
      rw [passed, foldl_cons, addNamed_of_special (.inl only), ih]
    | false =>
      have taken : accessAces (ace :: aces) = core ace :: accessAces aces := by
        simp [accessAces, only]
      rw [taken, foldl_cons, foldl_cons, addNamed_accessOnly acl posix only, ih]

/-- The named users and groups of a list, without the basic rights. -/
abbrev unclassed (posix : AccessControlList) : AccessControlList :=
  { AccessControlList.empty with list := posix.list }

/-- Entries of named users and groups are added beside the basic rights. -/
theorem addNamed_rights (acl : RichACL) (posix : AccessControlList) (ace : Ace) :
    acl.addNamed posix ace = { posix with list := (acl.addNamed (unclassed posix) ace).list } := by
  have eq : ∀ type id rights, posix.setNamed type id rights =
      { posix with list := ((unclassed posix).setNamed type id rights).list } := by
    intro type id rights
    unfold setNamed
    rw [show (unclassed posix).fromPlace type id = posix.fromPlace type id from rfl]
    cases posix.fromPlace type id with
    | nil | cons first rest =>
      dsimp only [unclassed]
      split_ifs <;> rfl
  have add : ∀ type, type = kNamedUser ∨ type = kNamedGroup → ∀ id rights,
      (if (posix.getEntry type id).type ≠ kInvalid then posix else posix.setEntry type id rights) =
        { posix with list := (if ((unclassed posix).getEntry type id).type ≠ kInvalid then
            unclassed posix else (unclassed posix).setEntry type id rights).list } := by
    intro type named id rights
    unfold setEntry getEntry
    rw [if_pos named, if_pos named,
      show (unclassed posix).findNamed type id = posix.findNamed type id from rfl, eq]
    split <;> rfl
  unfold addNamed
  split_ifs
  · rfl
  · exact add kNamedUser (.inl rfl) _ _
  · exact add kNamedGroup (.inr rfl) _ _
  · rfl

/-- The entries of named users and groups of a list. -/
def namedEntries (acl : RichACL) : List Entry :=
  (acl.aceList.foldl acl.addNamed AccessControlList.empty).list

theorem foldl_addNamed_rights (acl : RichACL) (posix : AccessControlList) (aces : List Ace) :
    aces.foldl acl.addNamed posix =
      { posix with list := (aces.foldl acl.addNamed (unclassed posix)).list } := by
  induction aces generalizing posix with
  | nil => rfl
  | cons ace aces ih =>
    rw [foldl_cons, foldl_cons, ih, addNamed_rights acl posix,
      ih (acl.addNamed (unclassed posix) ace)]

/-- Which rights the conversion gives to the owner, to the group and to the others. -/
def ownerAllowed (acl : RichACL) : Mask :=
  let owner := if acl.has kWriteThrough then acl.ownerMask
    else acl.allowedToWho (Ace.special Ace.kOwnerSpecialId)
  if acl.has kMasked then owner &&& acl.ownerMask else owner

def groupAllowed (acl : RichACL) : Mask :=
  if acl.has kWriteThrough ∧ ¬ acl.hasGroupEntry then acl.groupMask
  else acl.allowedToWho (Ace.special Ace.kGroupSpecialId)

def otherAllowed (acl : RichACL) : Mask :=
  let other := if acl.has kWriteThrough then acl.otherMask
    else acl.allowedToWho (Ace.special Ace.kEveryoneSpecialId)
  if acl.has kMasked then other &&& acl.otherMask else other

/-- The conversion, field by field. -/
theorem convertToPosixACL_eq (acl : RichACL) : acl.convertToPosixACL =
      if ¬ acl.has kMasked ∧ acl.aceList = [] then (false, AccessControlList.empty)
      else (true, ⟨acl.namedEntries, maskRights acl.ownerAllowed, maskRights acl.groupAllowed,
          maskRights acl.otherAllowed,
          if acl.has kMasked ∧ acl.hasGroupEntry then maskRights acl.groupMask
          else kMaskUnset⟩) := by
  have mode : acl.posixMode = joinModes (maskRights acl.ownerAllowed) (maskRights acl.groupAllowed)
      (maskRights acl.otherAllowed) := posixMode_eq _ _ _
  unfold convertToPosixACL
  dsimp only
  rw [mode, setMode_joinModes (convertMask2Mode_eq _).1 (convertMask2Mode_eq _).1
    (convertMask2Mode_eq _).1, foldl_addNamed_rights]
  split
  · rfl
  · split
    · rfl
    · rfl

theorem namedEntries_congr {acl other : RichACL} (eq : acl.accessOnly = other.accessOnly) :
    acl.namedEntries = other.namedEntries := by
  have list : accessAces acl.aceList = accessAces other.aceList := congrArg aceList eq
  have here := foldl_addNamed_accessOnly acl AccessControlList.empty acl.aceList
  have there := foldl_addNamed_accessOnly other AccessControlList.empty other.aceList
  unfold namedEntries
  rw [← here, ← there, eq, list]

/-- Lists with the same entries for access, flags and masks are read alike. -/
theorem convertToPosixACL_congr {acl other : RichACL} (eq : acl.accessOnly = other.accessOnly)
    (flags : acl.flags = other.flags) (owner : acl.ownerMask = other.ownerMask)
    (group : acl.groupMask = other.groupMask) (others : acl.otherMask = other.otherMask)
    (none : acl.aceList = [] ↔ other.aceList = []) :
    acl.convertToPosixACL = other.convertToPosixACL := by
  have has : ∀ flag, acl.has flag = other.has flag := by
    intro flag
    unfold RichACL.has
    rw [flags]
  have allowed : ∀ who, acl.allowedToWho who = other.allowedToWho who := by
    intro who
    rw [← allowedToWho_accessOnly, eq, allowedToWho_accessOnly]
  have groupEntry : acl.hasGroupEntry = other.hasGroupEntry := by
    rw [← hasGroupEntry_accessOnly, eq, hasGroupEntry_accessOnly]
  rw [convertToPosixACL_eq, convertToPosixACL_eq]
  unfold ownerAllowed groupAllowed otherAllowed
  simp only [has, allowed, groupEntry, owner, group, others, none, namedEntries_congr eq]

end Core

/-! ## The list of a POSIX list -/

section Shape

variable {acl : RichACL} {base : List Ace} {posix : AccessControlList} {isDir : Bool}

/-- All entries of the shape give back the entries of named users and groups. -/
theorem namedEntries_shape (h : posix.Stored) (list : acl.aceList = shaped posix isDir base)
    (noAccess : ∀ ace ∈ base, ace.isInheritOnly = true) : acl.namedEntries = posix.list := by
  have classes : (base ++ [ownerAce posix isDir, groupAce posix isDir]).foldl acl.addNamed
      AccessControlList.empty = AccessControlList.empty := by
    refine foldl_addNamed_of_special fun ace mem => ?_
    simp only [mem_append, mem_cons, not_mem_nil, or_false] at mem
    rcases mem with inBase | rfl | rfl
    · exact .inl (noAccess ace inBase)
    · exact .inr (has_special _ _)
    · exact .inr (has_special _ _)
  have filtered : namedAces posix isDir = posix.list.map (namedAce isDir) := by
    rw [namedAces, filter_eq_self.mpr h.named]
  have rights : ∀ entry ∈ posix.list,
      maskRights (acl.allowedToWho (namedAce isDir entry)) = entry.accessRights := by
    intro entry mem
    have inside : namedAce isDir entry ∈ classAces posix isDir := by
      rw [classAces, filtered]
      exact mem_append_right _ (mem_map_of_mem mem)
    rw [allowedToWho_classAce list noAccess h.ordered inside rfl]
    unfold namedAce
    rw [bits_allowAce, maskRights_rightsMask isDir (h.rights entry mem)]
  have named := foldl_addNamed_named h.ordered h.named h.fits rights
  have known : ∀ ace ∈ denyAces posix isDir ++ [everyoneAce posix isDir],
      (ace.isInheritOnly = true ∨ ace.has Ace.kSpecialWho = true) ∨
        ∃ entry : Entry, entry.isNamed = true ∧ ace.identity = (namedAce isDir entry).identity ∧
          ace.isInheritOnly = false ∧
            ((unclassed posix).findNamed entry.type entry.id).isSome = true := by
    intro ace mem
    rcases mem_append.mp mem with denying | last
    · obtain ⟨entry, inside, made⟩ := mem_denyAces.mp denying
      have eq := of_newDeny made
      rw [classAces, filtered] at inside
      simp only [mem_append, mem_cons, not_mem_nil, or_false, mem_map] at inside
      rcases inside with (rfl | rfl) | ⟨entry, inList, rfl⟩
      · exact .inl (.inr ((has_congr eq.1 (by decide)).trans (has_special _ _)))
      · exact .inl (.inr ((has_congr eq.1 (by decide)).trans (has_special _ _)))
      · refine .inr ⟨entry, h.named entry inList, eq.1, eq.2, ?_⟩
        have found : (unclassed posix).findNamed entry.type entry.id = some entry :=
          (findNamed_eq_some h.ordered).mpr ⟨inList, rfl, rfl⟩
        rw [found]
        rfl
    · rw [mem_singleton.mp last]
      exact .inl (.inr (has_special _ _))
  have whole : acl.aceList = base ++ [ownerAce posix isDir, groupAce posix isDir] ++
      (namedAces posix isDir ++ (denyAces posix isDir ++ [everyoneAce posix isDir])) := by
    rw [list, shaped, classAces]
    simp only [append_assoc]
  rw [namedEntries, whole, foldl_append, foldl_append, classes, filtered, named]
  exact congrArg (·.list) (foldl_addNamed_of_known known)

theorem hasGroupEntry_shape (list : acl.aceList = shaped posix isDir base) :
    acl.hasGroupEntry = true := by
  have access : (groupAce posix isDir).isInheritOnly = false := isInheritOnly_special _ _
  have group : (groupAce posix isDir).isGroup = true := by
    unfold isGroup
    rw [groupAce, has_special]
    exact show (true && decide (kGroupSpecialId = kGroupSpecialId)) = true by decide
  unfold hasGroupEntry
  rw [list]
  refine any_eq_true.mpr ⟨groupAce posix isDir, by simp [shaped, classAces], ?_⟩
  rw [access, group]
  rfl

/-- A list of this shape stands for the POSIX list that it was made from. -/
theorem convertToPosixACL_shape (h : posix.Stored) (list : acl.aceList = shaped posix isDir base)
    (noAccess : ∀ ace ∈ base, ace.isInheritOnly = true) (through : acl.has kWriteThrough = false)
    (masks : acl.has kMasked = true → acl.ownerMask = rightsMask isDir posix.ownerRights ∧
      acl.otherMask = rightsMask isDir posix.otherRights) : acl.convertToPosixACL =
      (true, { posix with
        maskRights := if acl.has kMasked then maskRights acl.groupMask else kMaskUnset }) := by
  have owner : acl.allowedToWho (special kOwnerSpecialId) =
      rightsMask isDir posix.ownerRights :=
    (allowedToWho_classAce list noAccess h.ordered
      (show ownerAce posix isDir ∈ _ by simp [classAces]) rfl).trans (bits_allowAce _ _ _ _)
  have group : acl.allowedToWho (special kGroupSpecialId) =
      rightsMask isDir posix.groupRights :=
    (allowedToWho_classAce list noAccess h.ordered
      (show groupAce posix isDir ∈ _ by simp [classAces]) rfl).trans (bits_allowAce _ _ _ _)
  have other := allowedToWho_everyone list noAccess
  have kept : ∀ mask rights, (acl.has kMasked = true → mask = rightsMask isDir rights) →
      (if acl.has kMasked = true then rightsMask isDir rights &&& mask
        else rightsMask isDir rights) = rightsMask isDir rights := by
    intro mask rights eq
    split
    next masked => rw [eq masked, BitVec.and_self]
    · rfl
  have some : ¬ (¬ acl.has kMasked = true ∧ acl.aceList = []) := by
    rw [list]
    simp [shaped]
  rw [convertToPosixACL_eq, if_neg some, namedEntries_shape h list noAccess]
  unfold ownerAllowed groupAllowed otherAllowed
  rw [through, owner, group, other, hasGroupEntry_shape list]
  rw [if_neg Bool.false_ne_true, if_neg Bool.false_ne_true,
    if_neg (show ¬ (false = true ∧ ¬ true = true) by simp),
    kept _ _ fun masked => (masks masked).1, kept _ _ fun masked => (masks masked).2,
    maskRights_rightsMask isDir h.owner, maskRights_rightsMask isDir h.group,
    maskRights_rightsMask isDir h.other]
  simp

theorem eq_of_minimal (minimal : posix.minimalAcl = true) :
    posix = ⟨[], posix.ownerRights, posix.groupRights, posix.otherRights, kMaskUnset⟩ := by
  unfold minimalAcl at minimal
  rw [Bool.and_eq_true, decide_eq_true_iff, List.isEmpty_iff] at minimal
  rw [← minimal.1, ← minimal.2]

/-- A list without entries for access, whose masks decide, stands for the mode of its masks. -/
theorem convertToPosixACL_masks (noAccess : ∀ ace ∈ acl.aceList, ace.isInheritOnly = true)
    (masked : acl.has kMasked = true) (through : acl.has kWriteThrough = true) :
    acl.convertToPosixACL = (true, ⟨[], maskRights acl.ownerMask, maskRights acl.groupMask,
      maskRights acl.otherMask, kMaskUnset⟩) := by
  have noGroup : acl.hasGroupEntry = false := by
    unfold hasGroupEntry
    rw [any_eq_false]
    intro ace mem
    simp [noAccess ace mem]
  have named : acl.namedEntries = [] := by
    unfold namedEntries
    rw [foldl_addNamed_of_special fun ace mem => .inl (noAccess ace mem)]
    rfl
  rw [convertToPosixACL_eq, if_neg (by simp [masked]), named]
  unfold ownerAllowed groupAllowed otherAllowed
  rw [through, noGroup]
  simp

/-- The access list that is set is the one that is read. -/
theorem convertToPosixACL_appendPosixACL (acl : RichACL) (h : posix.Stored)
    (noAccess : ∀ ace ∈ acl.aceList, ace.isInheritOnly = true) :
    (acl.appendPosixACL posix isDir).convertToPosixACL = (true, posix) := by
  cases extended : posix.minimalAcl with
  | true =>
    obtain ⟨made, masked, through⟩ := @appendPosixACL_minimal posix isDir acl extended
    have inherited : ∀ ace ∈ (acl.appendPosixACL posix isDir).aceList,
        ace.isInheritOnly = true := by
      rw [made]
      exact noAccess
    rw [convertToPosixACL_masks inherited masked through, made]
    rw [maskRights_rightsMask isDir h.owner, maskRights_rightsMask isDir h.group,
      maskRights_rightsMask isDir h.other, ← eq_of_minimal extended]
  | false =>
    have made := @appendPosixACL_extended posix isDir acl h.ordered extended noAccess
    have through : (acl.appendPosixACL posix isDir).has kWriteThrough = false := by
      rw [made]
      exact show decide ((if posix.maskRights ≠ kMaskUnset then kMasked else 0) &&&
        kWriteThrough ≠ 0) = false by split <;> decide
    have masked : (acl.appendPosixACL posix isDir).has kMasked =
        decide (posix.maskRights ≠ kMaskUnset) := by
      rw [made]
      unfold has
      by_cases unset : posix.maskRights = kMaskUnset
      · simp [unset]
      · simp [unset, kMasked]
    rw [convertToPosixACL_shape h (congrArg aceList made) noAccess through
      fun _ => ⟨congrArg ownerMask made, congrArg otherMask made⟩, masked, made]
    by_cases unset : posix.maskRights = kMaskUnset
    · rw [if_neg (by simp [unset]), ← unset]
    · have small := h.mask.resolve_right unset
      rw [if_pos (by simp [unset]), if_pos unset, maskRights_rightsMask isDir small]

end Shape

end RichACL

end LeilFS.Acl
