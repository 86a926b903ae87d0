/-
Module: LeilFS.Acl.Permissions
Purpose: What a rich list made from a POSIX list grants, and when it is what the POSIX list
  grants.
Trusted boundary: none
-/
import LeilFS.Acl.PosixShape

namespace LeilFS.Acl

open Ace AccessControlList List Mask
open AccessControlList (getEffectiveRights applyMask findNamed_eq_some namedGroupRights)

/-! ## Sets of rights -/

namespace Rights

/-- Rights that are all among other rights. -/
def Within (rights more : Rights) : Prop := rights &&& ~~~more = 0

instance (rights more : Rights) : Decidable (Within rights more) :=
  inferInstanceAs (Decidable (_ = _))

/-- The union of some rights. -/
def union (all : List Rights) : Rights := all.foldl (· ||| ·) 0

theorem getLsbD_union (all : List Rights) (i : Nat) :
    (union all).getLsbD i = all.any (·.getLsbD i) := by
  have step : ∀ (start : Rights), (all.foldl (· ||| ·) start).getLsbD i =
      (start.getLsbD i || all.any (·.getLsbD i)) := by
    induction all with
    | nil => simp
    | cons rights all ih =>
      intro start
      rw [foldl_cons, ih, BitVec.getLsbD_or, any_cons, Bool.or_assoc]
  rw [union, step]
  simp

theorem permits_union (isDir : Bool) (all : List Rights) (i : Nat) :
    permits isDir (union all) i = all.any (permits isDir · i) := by
  unfold permits
  split_ifs
  · exact getLsbD_union all 2
  · exact getLsbD_union all 1
  · exact getLsbD_union all 0
  · simp

/-- Rights are among others when all their permissions are. -/
theorem within_iff_permits {rights : Rights} (le : rights ≤ 7) (more : Rights) (isDir : Bool) :
    Within rights more ↔ ∀ i, permits isDir rights i = true → permits isDir more i = true := by
  have bits : Within rights more ↔ (rights.getLsbD 2 = true → more.getLsbD 2 = true) ∧
      (rights.getLsbD 1 = true → more.getLsbD 1 = true) ∧
      (rights.getLsbD 0 = true → more.getLsbD 0 = true) := by
    revert le
    unfold Within
    revert rights more
    decide
  rw [bits]
  constructor
  · rintro ⟨read, write, exec⟩ i
    unfold permits
    split_ifs
    · exact read
    · exact write
    · exact exec
    · exact id
  · intro all
    exact ⟨all 0, all 1, all 5⟩

end Rights

namespace RichACL

/-! ## The check of permissions, bit by bit -/

/-- The permissions that an entry decides about for a caller. -/
def decided (acl : RichACL) (kind : AceMatch) (ace : Ace) : Mask :=
  if kind = .groupClass ∧ acl.has kMasked ∧ ace.isAllow then ace.bits &&& acl.groupMask
  else ace.bits

/-- Whether an entry applies and decides about a permission. -/
def decides (acl : RichACL) (kind : Ace → AceMatch) (i : Nat) (ace : Ace) : Bool :=
  kind ace ≠ .nobody && (acl.decided (kind ace) ace).getLsbD i

/-- Whether the first entry that decides about a permission denies it, or there is none. -/
def refused (acl : RichACL) (kind : Ace → AceMatch) (aces : List Ace) (i : Nat) : Bool :=
  ((aces.find? (acl.decides kind i)).map (·.isDeny)).getD true

/-- One entry decides about what it speaks of, as far as nothing was decided before. -/
theorem getLsbD_checkAce (acl : RichACL) (kind : AceMatch) (ace : Ace) (check : Check) (i : Nat) :
    ((acl.checkAce kind ace check).denied.getLsbD i = (check.denied.getLsbD i ||
        (ace.isDeny && (acl.decided kind ace).getLsbD i && check.undecided.getLsbD i))) ∧
    ((acl.checkAce kind ace check).undecided.getLsbD i =
      (check.undecided.getLsbD i && !(acl.decided kind ace).getLsbD i)) := by
  have mask : (if kind = .groupClass ∧ acl.has kMasked ∧ ace.isAllow then ace.bits &&& acl.groupMask
      else ace.bits) = acl.decided kind ace := rfl
  unfold checkAce
  rw [mask]
  dsimp only
  constructor
  · cases ace.isDeny <;> simp
  · by_cases lt : i < 32
    · simp [lt]
    · simp [BitVec.getLsbD_of_ge check.undecided i (by omega)]

/-- The loop refuses a permission that it is asked for when the first entry about it denies. -/
theorem getLsbD_checkAces (acl : RichACL) (kind : Ace → AceMatch) (aces : List Ace) (check : Check)
    (i : Nat) : ((acl.checkAces kind aces check).denied.getLsbD i ||
        (acl.checkAces kind aces check).undecided.getLsbD i) =
      (check.denied.getLsbD i || (check.undecided.getLsbD i && acl.refused kind aces i)) := by
  induction aces generalizing check with
  | nil => simp [checkAces, refused]
  | cons ace aces ih =>
    unfold checkAces
    by_cases nobody : kind ace = .nobody
    · have passed : acl.refused kind (ace :: aces) i = acl.refused kind aces i := by
        unfold refused
        rw [find?_cons, show acl.decides kind i ace = false by simp [decides, nobody]]
      rw [if_pos nobody, ih, passed]
    have here : acl.refused kind (ace :: aces) i =
        if (acl.decided (kind ace) ace).getLsbD i then ace.isDeny
        else acl.refused kind aces i := by
      unfold refused
      rw [find?_cons, show acl.decides kind i ace = (acl.decided (kind ace) ace).getLsbD i by
        simp [decides, nobody]]
      cases (acl.decided (kind ace) ace).getLsbD i <;> rfl
    have step := acl.getLsbD_checkAce (kind ace) ace check i
    rw [if_neg nobody, here]
    generalize acl.checkAce (kind ace) ace check = next at step ⊢
    -- when the loop ends early, nothing is left to decide
    have rest : ∀ after, after = (if next.undecided = 0 ∧ next.inClass = true then next
        else acl.checkAces kind aces next) → (after.denied.getLsbD i || after.undecided.getLsbD i) =
          (next.denied.getLsbD i || (next.undecided.getLsbD i && acl.refused kind aces i)) := by
      rintro after rfl
      split
      next past => simp [past.1]
      · exact ih next
    rw [rest _ rfl, step.1, step.2]
    cases (acl.decided (kind ace) ace).getLsbD i <;> cases ace.isDeny <;>
      cases check.undecided.getLsbD i <;> simp

/-- The loop notices every entry that applies to the caller in particular. -/
theorem inClass_checkAces (acl : RichACL) (kind : Ace → AceMatch) (aces : List Ace)
    (check : Check) :
    (acl.checkAces kind aces check).inClass =
      (check.inClass || aces.any fun ace => kind ace ≠ .nobody && kind ace ≠ .everyone) := by
  induction aces generalizing check with
  | nil => simp [checkAces]
  | cons ace aces ih =>
    unfold checkAces
    rw [any_cons]
    by_cases nobody : kind ace = .nobody
    · rw [if_pos nobody, ih]
      simp [nobody]
    have step : (acl.checkAce (kind ace) ace check).inClass =
        (check.inClass || kind ace ≠ .everyone) := rfl
    rw [if_neg nobody]
    generalize acl.checkAce (kind ace) ace check = next at step ⊢
    dsimp only
    split
    next past =>
      have already : (check.inClass ||
          (kind ace ≠ .nobody && kind ace ≠ .everyone)) = true := by
        simpa [nobody, past.2] using step.symm
      rw [past.2, ← Bool.or_assoc, already, Bool.true_or]
    · rw [ih, step]
      simp [nobody, Bool.or_assoc]

theorem eq_zero_iff_getLsbD (mask : Mask) : mask = 0 ↔ ∀ i, mask.getLsbD i = false := by
  constructor
  · rintro rfl i
    exact BitVec.getLsbD_zero
  · intro none
    apply BitVec.eq_of_getLsbD_eq
    intro i _
    rw [none i]
    exact BitVec.getLsbD_zero.symm

section Check

variable {acl : RichACL} (requested : Mask) (ownerUid ownerGid uid : UInt32) (groups : List UInt32)

variable (acl) in
/-- Whether the caller belongs to the owning group or an entry applies to the caller in
particular. -/
def inClass : Bool :=
  decide (ownerGid ∈ groups) || acl.aceList.any fun ace =>
    aceMatch ownerUid ownerGid uid groups ace ≠ .nobody &&
      aceMatch ownerUid ownerGid uid groups ace ≠ .everyone

/-- The entries decide, unless masks are written through to somebody outside the group class; with
masks, a permission also has to be in the mask of the caller's class. -/
theorem checkPermission_iff : acl.checkPermission requested ownerUid ownerGid uid groups = true ↔
      ∀ i, requested.getLsbD i = true → (acl.has kMasked = true ∧ acl.has kWriteThrough = true ∧
            (uid = ownerUid ∨ acl.inClass ownerUid ownerGid uid groups = false) ∨
          acl.refused (aceMatch ownerUid ownerGid uid groups) acl.aceList i = false) ∧
        (acl.has kMasked = true →
          (if uid = ownerUid then acl.ownerMask
          else if acl.inClass ownerUid ownerGid uid groups then acl.groupMask
          else acl.otherMask).getLsbD i = true) := by
  have bits := acl.getLsbD_checkAces (aceMatch ownerUid ownerGid uid groups) acl.aceList
    ⟨requested, 0, !acl.has kMasked || decide (ownerGid ∈ groups)⟩
  have inside := acl.inClass_checkAces (aceMatch ownerUid ownerGid uid groups) acl.aceList
    ⟨requested, 0, !acl.has kMasked || decide (ownerGid ∈ groups)⟩
  unfold checkPermission
  generalize acl.checkAces _ acl.aceList _ = result at bits inside ⊢
  have missing (mask : Mask) (i : Nat) : (requested &&& ~~~mask).getLsbD i =
      (requested.getLsbD i && !mask.getLsbD i) := by
    by_cases low : i < 32
    · simp [low]
    · simp [BitVec.getLsbD_of_ge requested i (by omega)]
  cases masked : acl.has kMasked with
  | false =>
    simp only [Bool.false_eq_true, false_and, if_false, decide_eq_true_iff, eq_zero_iff_getLsbD,
      BitVec.getLsbD_or, bits]
    simp
  | true =>
    have eq : result.inClass = acl.inClass ownerUid ownerGid uid groups := by
      rw [inside, masked]
      rfl
    simp only [true_and, if_true, eq, eq_comm (a := ownerUid)]
    split_ifs <;>
      simp only [decide_eq_true_iff, eq_zero_iff_getLsbD, BitVec.getLsbD_or, bits, missing] <;>
      exact forall_congr' fun i => by grind

end Check

/-! ## The entries of a POSIX list that apply to a caller -/

/-- Whether an entry names the caller or a group of the caller. -/
def appliesTo (uid : UInt32) (groups : List UInt32) (entry : Entry) : Bool :=
  entry.type = kNamedUser && entry.id = uid || entry.type = kNamedGroup && entry.id ∈ groups

section Matching

variable (posix : AccessControlList) (ownerUid ownerGid uid : UInt32) (groups : List UInt32)

/-- The rights of all entries that apply to the caller, but for those of the others. -/
def matchingRights : List Rights :=
  (if uid = ownerUid then [posix.ownerRights] else []) ++
    (if ownerGid ∈ groups then [posix.groupRights] else []) ++
    (posix.list.filter (appliesTo uid groups)).map (·.accessRights)

variable {posix} {isDir : Bool}

/-- Whom an entry of the owner, the owning group or everyone is for. -/
theorem aceMatch_special (mask : Mask) (id : UInt32) :
    aceMatch ownerUid ownerGid uid groups (allowAce kSpecialWho mask id) =
      if id = kOwnerSpecialId then if ownerUid ≠ uid then .nobody else .owner
      else if id = kGroupSpecialId then if ownerGid ∈ groups then .groupClass else .nobody
      else .everyone := by
  have eq : (allowAce kSpecialWho mask id).id = id := rfl
  unfold aceMatch isOwner isGroup isUnixUser isUnixGroup
  rw [isInheritOnly_special, has_special, eq]
  simp

theorem aceMatch_ownerAce : aceMatch ownerUid ownerGid uid groups (ownerAce posix isDir) =
    if ownerUid ≠ uid then .nobody else .owner := by
  rw [ownerAce, aceMatch_special, if_pos rfl]

theorem aceMatch_groupAce : aceMatch ownerUid ownerGid uid groups (groupAce posix isDir) =
    if ownerGid ∈ groups then .groupClass else .nobody := by
  rw [groupAce, aceMatch_special, if_neg (by decide), if_pos rfl]

theorem aceMatch_everyoneAce :
    aceMatch ownerUid ownerGid uid groups (everyoneAce posix isDir) = .everyone := by
  rw [everyoneAce, aceMatch_special, if_neg (by decide), if_neg (by decide)]

theorem aceMatch_namedAce (entry : Entry) :
    aceMatch ownerUid ownerGid uid groups (namedAce isDir entry) =
      if entry.type = kNamedUser then
        if uid ≠ entry.id then .nobody else if uid = ownerUid then .owner else .groupClass
      else if entry.id ∈ groups then .groupClass else .nobody := by
  have id : (namedAce isDir entry).id = entry.id := rfl
  unfold aceMatch isOwner isGroup isUnixUser isUnixGroup
  rw [isInheritOnly_namedAce, has_special_namedAce, has_group_namedAce, id]
  by_cases user : entry.type = kNamedUser
  · simp [user]
  · simp [user]

theorem aceMatch_ne_everyone :
    ∀ ace ∈ classAces posix isDir, aceMatch ownerUid ownerGid uid groups ace ≠ .everyone := by
  refine forall_mem_classAces ?_ ?_ fun entry => ?_
  · rw [aceMatch_ownerAce]
    split <;> decide
  · rw [aceMatch_groupAce]
    split <;> decide
  · rw [aceMatch_namedAce]
    split_ifs <;> decide

theorem applies_namedAce (entry : Entry) :
    (decide (aceMatch ownerUid ownerGid uid groups (namedAce isDir entry) ≠ .nobody) &&
      entry.isNamed) = appliesTo uid groups entry := by
  rw [aceMatch_namedAce]
  unfold appliesTo Entry.isNamed
  by_cases user : entry.type = kNamedUser
  · by_cases named : uid = entry.id
    · by_cases owner : uid = ownerUid
      · simp [user, named, owner ▸ named]
      · simp [user, named, named ▸ owner]
    · simp [user, named, Ne.symm named, kNamedUser, kNamedGroup]
  by_cases group : entry.type = kNamedGroup
  · by_cases named : entry.id ∈ groups
    · simp [group, named, kNamedUser, kNamedGroup]
    · simp [group, named, kNamedUser, kNamedGroup]
  · simp [user, group]

/-- The entries that apply, and the rights they are made from. -/
theorem bits_matching : ((classAces posix isDir).filter fun ace =>
        aceMatch ownerUid ownerGid uid groups ace ≠ .nobody).map bits =
      (matchingRights posix ownerUid ownerGid uid groups).map (rightsMask isDir) := by
  have named : ((namedAces posix isDir).filter fun ace =>
      aceMatch ownerUid ownerGid uid groups ace ≠ .nobody).map bits =
        ((posix.list.filter (appliesTo uid groups)).map (·.accessRights)).map
          (rightsMask isDir) := by
    unfold namedAces
    rw [filter_map, filter_filter, map_map, map_map]
    have eq : ∀ entry ∈ posix.list,
        (((fun ace => decide (aceMatch ownerUid ownerGid uid groups ace ≠
        .nobody)) ∘ namedAce isDir) entry && entry.isNamed) = appliesTo uid groups entry :=
      fun entry _ => applies_namedAce ownerUid ownerGid uid groups entry
    rw [filter_congr eq]
    exact map_congr_left fun entry _ => bits_allowAce isDir entry.accessRights _ _
  unfold classAces matchingRights
  rw [filter_append, map_append, map_append, named, map_append,
    filter_cons, filter_cons, filter_nil, aceMatch_ownerAce, aceMatch_groupAce]
  have owner : (ownerAce posix isDir).bits = rightsMask isDir posix.ownerRights :=
    bits_allowAce isDir _ _ _
  have group : (groupAce posix isDir).bits = rightsMask isDir posix.groupRights :=
    bits_allowAce isDir _ _ _
  by_cases isOwner : uid = ownerUid <;> by_cases inGroup : ownerGid ∈ groups
  · simp [isOwner, inGroup, owner, group]
  · simp [isOwner, inGroup, owner]
  · simp [isOwner, Ne.symm isOwner, inGroup, group]
  · simp [isOwner, Ne.symm isOwner, inGroup]

variable (isDir) in
/-- Some entry that applies gives a permission. -/
theorem exists_applies_iff (i : Nat) :
    (∃ ace ∈ classAces posix isDir, aceMatch ownerUid ownerGid uid groups ace ≠ .nobody ∧
        ace.bits.getLsbD i = true) ↔
      permits isDir
        (Rights.union (matchingRights posix ownerUid ownerGid uid groups)) i = true := by
  have bits : ((classAces posix isDir).filter fun ace =>
      aceMatch ownerUid ownerGid uid groups ace ≠ .nobody).any (·.bits.getLsbD i) =
        (matchingRights posix ownerUid ownerGid uid groups).any (permits isDir · i) := by
    have image := congrArg (·.any (·.getLsbD i))
      (@bits_matching posix ownerUid ownerGid uid groups isDir)
    simpa [Function.comp_def, getLsbD_rightsMask] using image
  rw [Rights.permits_union, ← bits, any_eq_true]
  simp [and_assoc]

variable (isDir) in
/-- No entry applies. -/
theorem forall_not_applies_iff :
    (∀ ace ∈ classAces posix isDir, aceMatch ownerUid ownerGid uid groups ace = .nobody) ↔
      matchingRights posix ownerUid ownerGid uid groups = [] := by
  rw [← map_eq_nil_iff (f := rightsMask isDir), ← bits_matching, map_eq_nil_iff, filter_eq_nil_iff]
  simp

end Matching

/-! ## What a list made from a POSIX list grants -/

section Granted

variable {acl : RichACL} {posix : AccessControlList} {isDir : Bool} {base : List Ace}
  {ownerUid ownerGid uid : UInt32} {groups : List UInt32}

/-- Entries that apply to a caller, as the check looks for them. -/
theorem decides_aceMatch (noAccess : ∀ ace ∈ base, ace.isInheritOnly = true) (i : Nat) :
    Decides posix isDir base i
      (fun ace => decide (aceMatch ownerUid ownerGid uid groups ace ≠ .nobody))
      (acl.decides (aceMatch ownerUid ownerGid uid groups) i) where
  base ace inBase := by simp [decides, aceMatch, noAccess ace inBase]
  sound ace here := by
    unfold decides decided at here
    rw [Bool.and_eq_true] at here
    refine ⟨here.1, ?_⟩
    have bit := here.2
    split at bit
    · rw [BitVec.getLsbD_and, Bool.and_eq_true] at bit
      exact bit.1
    · exact bit
  complete ace mem speaks bit := by
    have whole : acl.decided (aceMatch ownerUid ownerGid uid groups ace) ace = ace.bits := by
      unfold decided
      rcases mem_append.mp mem with denying | last
      · have notAllow : ace.isAllow = false := by
          unfold isAllow
          rw [isDeny_of_mem_denyAces denying]
          decide
        rw [if_neg (by simp [notAllow])]
      · rw [mem_singleton.mp last, aceMatch_everyoneAce, if_neg (by simp)]
    unfold decides
    rw [whole, bit, speaks]
    rfl
  deny := by
    intro entry denying mem made
    have eq := of_newDeny made
    rw [aceMatch_congr eq.1 (eq.2.trans (isInheritOnly_of_mem_classAces _ mem).symm)]
  everyone := by
    rw [aceMatch_everyoneAce]
    decide

/-- A permission passes the entries when the first one about it allows it. -/
theorem refused_eq_false_iff {aces : List Ace} (list : aces = shaped posix isDir base)
    (noAccess : ∀ ace ∈ base, ace.isInheritOnly = true) (i : Nat) :
    acl.refused (aceMatch ownerUid ownerGid uid groups) aces i = false ↔
      (aces.find? (acl.decides (aceMatch ownerUid ownerGid uid groups) i)).map (·.type) =
        some kAccessAllowedAceType := by
  have types :
      (aces.find? (acl.decides (aceMatch ownerUid ownerGid uid groups) i)).map (·.type) = _ :=
    list ▸ find?_shape fun ace inBase => by simp [decides, aceMatch, noAccess ace inBase]
  unfold refused
  cases found : aces.find? (acl.decides (aceMatch ownerUid ownerGid uid groups) i) with
  | none => simp
  | some ace =>
    rw [found, Option.map_some] at types
    simp only [Option.map_some, Option.getD_some, Option.some.injEq, isDeny,
      decide_eq_false_iff_not]
    constructor
    · intro notDeny
      split at types
      · exact Option.some.inj types
      split at types
      · exact absurd (Option.some.inj types) notDeny
      · split at types
        · exact Option.some.inj types
        · simp at types
    · intro allowed
      rw [allowed]
      decide

section Refused

variable (list : acl.aceList = shaped posix isDir base)
  (noAccess : ∀ ace ∈ base, ace.isInheritOnly = true) (i : Nat)
include list noAccess

/-- Who has no entry passes with the rights of the others. -/
theorem refused_of_nobody (nobody : matchingRights posix ownerUid ownerGid uid groups = []) :
    acl.refused (aceMatch ownerUid ownerGid uid groups) acl.aceList i = false ↔
      permits isDir posix.otherRights i = true := by
  rw [refused_eq_false_iff list noAccess i, list]
  refine (decides_aceMatch noAccess i).everyoneElse ?_
  intro ace mem
  rw [(forall_not_applies_iff ownerUid ownerGid uid groups isDir).mpr nobody ace mem]
  decide

/-- Who has entries passes with the rights of all of them, where the mask of the group class
does not cut them. -/
theorem refused_of_somebody (some : matchingRights posix ownerUid ownerGid uid groups ≠ [])
    (whole : acl.has kMasked = true → acl.groupMask.getLsbD i = true) :
    acl.refused (aceMatch ownerUid ownerGid uid groups) acl.aceList i = false ↔
      permits isDir
        (Rights.union (matchingRights posix ownerUid ownerGid uid groups)) i = true := by
  rw [refused_eq_false_iff list noAccess i, list,
    ← exists_applies_iff ownerUid ownerGid uid groups isDir]
  constructor
  · intro allowed
    by_contra none
    push Not at none
    rw [ne_eq, ← forall_not_applies_iff ownerUid ownerGid uid groups isDir] at some
    push Not at some
    obtain ⟨entry, mem, applies⟩ := some
    refine (decides_aceMatch noAccess i).notAllowed mem (by simpa using applies) ?_ allowed
    intro ace inside speaks
    simpa using none ace inside (by simpa using speaks)
  · rintro ⟨entry, mem, applies, bit⟩
    refine (decides_aceMatch noAccess i).allowed mem ?_
    unfold decides decided
    rw [Bool.and_eq_true]
    refine ⟨by simpa using applies, ?_⟩
    split
    next cut => rw [BitVec.getLsbD_and, bit, whole cut.2.1]; rfl
    · exact bit

/-- Exactly who has entries belongs to a class of the list. -/
theorem inClass_iff : acl.inClass ownerUid ownerGid uid groups = true ↔
    matchingRights posix ownerUid ownerGid uid groups ≠ [] := by
  rw [ne_eq, ← forall_not_applies_iff ownerUid ownerGid uid groups isDir]
  push Not
  unfold inClass
  rw [Bool.or_eq_true, decide_eq_true_iff, any_eq_true, list, shaped]
  constructor
  · rintro (inGroup | ⟨ace, mem, applies⟩)
    · refine ⟨groupAce posix isDir, by simp [classAces], ?_⟩
      rw [aceMatch_groupAce, if_pos inGroup]
      decide
    · rw [Bool.and_eq_true, decide_eq_true_iff, decide_eq_true_iff] at applies
      simp only [mem_append, mem_singleton] at mem
      rcases mem with ((inBase | inside) | denying) | rfl
      · exact absurd (by simp [aceMatch, noAccess ace inBase]) applies.1
      · exact ⟨ace, inside, applies.1⟩
      · obtain ⟨entry, inside, made⟩ := mem_denyAces.mp denying
        have eq := of_newDeny made
        rw [aceMatch_congr eq.1 (eq.2.trans (isInheritOnly_of_mem_classAces _ inside).symm)]
          at applies
        exact ⟨entry, inside, applies.1⟩
      · exact absurd (aceMatch_everyoneAce ownerUid ownerGid uid groups) applies.2
  · rintro ⟨ace, inside, applies⟩
    refine .inr ⟨ace, by simp [inside], ?_⟩
    rw [Bool.and_eq_true, decide_eq_true_iff, decide_eq_true_iff]
    exact ⟨applies, aceMatch_ne_everyone ownerUid ownerGid uid groups _ inside⟩

/-- The owner passes with the owner's rights. -/
theorem refused_of_owner (owner : uid = ownerUid)
    (given : permits isDir posix.ownerRights i = true) :
    acl.refused (aceMatch ownerUid ownerGid uid groups) acl.aceList i = false := by
  rw [refused_eq_false_iff list noAccess i, list]
  refine (decides_aceMatch noAccess i).allowed (show ownerAce posix isDir ∈ _ from mem_cons_self) ?_
  unfold decides decided
  rw [aceMatch_ownerAce, if_neg (by simp [owner]), if_neg (by simp), ownerAce, bits_allowAce,
    getLsbD_rightsMask, given]
  rfl

end Refused

variable (posix ownerUid ownerGid uid groups) in
/-- What a rich list made from a POSIX list grants: the entries that apply are taken together,
and a list without entries grants nothing to the owning group. -/
def grantedRights : Rights :=
  if posix.minimalAcl then
    if uid = ownerUid then posix.ownerRights
    else if ownerGid ∈ groups then 0 else posix.otherRights
  else if uid = ownerUid ∧ posix.maskRights ≠ kMaskUnset then posix.ownerRights
  else if matchingRights posix ownerUid ownerGid uid groups = [] then posix.otherRights
  else posix.applyMask (Rights.union (matchingRights posix ownerUid ownerGid uid groups))

variable {rights : Rights}

/-- The permissions of rights are among those of other rights when the rights are. -/
theorem rightsMask_and_not_eq_zero (le : rights ≤ 7) (more : Rights) :
    rightsMask isDir rights &&& ~~~rightsMask isDir more = 0 ↔ Rights.Within rights more := by
  rw [Rights.within_iff_permits le more isDir, eq_zero_iff_getLsbD]
  refine forall_congr' fun i => ?_
  rw [BitVec.getLsbD_and, BitVec.getLsbD_not, getLsbD_rightsMask, getLsbD_rightsMask]
  by_cases low : i < 7
  · simp [show i < 32 by omega]
  · simp [permits_of_le isDir rights (by omega : 7 ≤ i)]

/-- The mask that decides for a caller when no entry applies: none for the members of the owning
group, and none for anybody unless the masks are written through. -/
def maskAlone (acl : RichACL) (ownerUid ownerGid uid : UInt32) (groups : List UInt32) : Mask :=
  if acl.has kMasked ∧ acl.has kWriteThrough then
    if uid = ownerUid then acl.ownerMask
    else if ownerGid ∈ groups then 0
    else acl.otherMask
  else 0

/-- Without entries for access the masks decide alone. -/
theorem checkPermission_of_inheritOnly
    (noAccess : ∀ ace ∈ acl.aceList, ace.isInheritOnly = true) (requested : Mask) :
    acl.checkPermission requested ownerUid ownerGid uid groups = true ↔
      requested &&& ~~~acl.maskAlone ownerUid ownerGid uid groups = 0 := by
  have nobody : ∀ ace ∈ acl.aceList, aceMatch ownerUid ownerGid uid groups ace = .nobody := by
    intro ace mem
    unfold aceMatch
    rw [noAccess ace mem, if_pos rfl]
  have refused (i : Nat) :
      acl.refused (aceMatch ownerUid ownerGid uid groups) acl.aceList i = true := by
    unfold refused
    rw [find?_eq_none.mpr fun ace mem => by simp [decides, nobody ace mem]]
    rfl
  have inClass : acl.inClass ownerUid ownerGid uid groups = decide (ownerGid ∈ groups) := by
    unfold inClass
    rw [any_eq_false.mpr fun ace mem => by simp [nobody ace mem], Bool.or_false]
  rw [checkPermission_iff, eq_zero_iff_getLsbD]
  refine forall_congr' fun i => ?_
  simp only [refused, inClass, maskAlone]
  grind

/-- A list that stands for a mode grants by its masks, and nothing to the owning group. -/
theorem checkPermission_minimal (minimal : posix.minimalAcl = true)
    (noAccess : ∀ ace ∈ acl.aceList, ace.isInheritOnly = true) (le : rights ≤ 7) :
    (acl.appendPosixACL posix isDir).checkPermission (rightsMask isDir rights) ownerUid ownerGid uid
        groups = true ↔
          Rights.Within rights (grantedRights posix ownerUid ownerGid uid groups) := by
  obtain ⟨made, masked, through⟩ := @appendPosixACL_minimal posix isDir acl minimal
  have eq : (acl.appendPosixACL posix isDir).aceList = acl.aceList := by rw [made]
  have nothing : rightsMask isDir 0 = 0 := by cases isDir <;> decide
  rw [checkPermission_of_inheritOnly (eq ▸ noAccess), ← @rightsMask_and_not_eq_zero isDir rights le]
  unfold grantedRights maskAlone
  rw [if_pos ⟨masked, through⟩, minimal, if_pos rfl, made]
  by_cases owner : uid = ownerUid
  · rw [if_pos owner, if_pos owner]
  · rw [if_neg owner, if_neg owner]
    by_cases inGroup : ownerGid ∈ groups
    · rw [if_pos inGroup, if_pos inGroup, nothing]
    · rw [if_neg inGroup, if_neg inGroup]

theorem permits_applyMask (rights : Rights) (i : Nat) : permits isDir (posix.applyMask rights) i =
      (permits isDir rights i &&
        (decide (posix.maskRights = kMaskUnset) || permits isDir posix.maskRights i)) := by
  unfold applyMask
  by_cases unset : posix.maskRights = kMaskUnset
  · simp [unset]
  · simp [unset, permits_and]

/-- With a mask, the owner has the owner's rights, and the mask cuts those of all other entries;
without one, all entries that apply are taken together, those of the owner too. -/
theorem checkPermission_extended (h : posix.Sorted) (extended : posix.minimalAcl = false)
    (noAccess : ∀ ace ∈ acl.aceList, ace.isInheritOnly = true) (requested : Mask) :
    (acl.appendPosixACL posix isDir).checkPermission requested ownerUid ownerGid uid groups = true ↔
      ∀ i, requested.getLsbD i = true →
        permits isDir (grantedRights posix ownerUid ownerGid uid groups) i = true := by
  have made := @appendPosixACL_extended posix isDir acl h extended noAccess
  have list := congrArg aceList made
  unfold grantedRights
  rw [extended, if_neg Bool.false_ne_true]
  by_cases unset : posix.maskRights = kMaskUnset
  · have plain : (acl.appendPosixACL posix isDir).has kMasked = false := by
      rw [made, unset]
      exact show decide ((0 : BitVec 16) &&& kMasked ≠ 0) = false by decide
    simp only [checkPermission_iff, plain, Bool.false_eq_true, false_and, false_or, false_imp_iff,
      and_true]
    refine forall_congr' fun i => imp_congr_right fun _ => ?_
    rw [if_neg (by simp [unset])]
    by_cases nobody : matchingRights posix ownerUid ownerGid uid groups = []
    · rw [if_pos nobody]
      exact refused_of_nobody list noAccess i nobody
    · rw [if_neg nobody, permits_applyMask, unset, decide_eq_true rfl, Bool.true_or, Bool.and_true]
      exact refused_of_somebody list noAccess i nobody fun masked => absurd masked (by simp [plain])
  · rw [if_pos unset, if_pos unset] at made
    have masked : (acl.appendPosixACL posix isDir).has kMasked = true := by
      rw [made]
      exact show decide (kMasked &&& kMasked ≠ 0) = true by decide
    have through : (acl.appendPosixACL posix isDir).has kWriteThrough = false := by
      rw [made]
      exact show decide (kMasked &&& kWriteThrough ≠ 0) = false by decide
    simp only [checkPermission_iff, masked, through, Bool.false_eq_true, false_and, and_false,
      false_or, true_imp_iff]
    refine forall_congr' fun i => imp_congr_right fun _ => ?_
    obtain ⟨ownerMask, groupMask, otherMask⟩ :
        (acl.appendPosixACL posix isDir).ownerMask.getLsbD i = permits isDir posix.ownerRights i ∧
        (acl.appendPosixACL posix isDir).groupMask.getLsbD i = permits isDir posix.maskRights i ∧
        (acl.appendPosixACL posix isDir).otherMask.getLsbD i =
          permits isDir posix.otherRights i := by
      rw [made, getLsbD_rightsMask, getLsbD_rightsMask, getLsbD_rightsMask]
      exact ⟨rfl, rfl, rfl⟩
    by_cases owner : uid = ownerUid
    · rw [if_pos owner, if_pos ⟨owner, unset⟩, ownerMask]
      exact ⟨fun both => both.2, fun given => ⟨refused_of_owner list noAccess i owner given, given⟩⟩
    have inClass := @inClass_iff _ posix isDir _ ownerUid ownerGid uid groups list noAccess
    rw [if_neg owner, if_neg (fun both : uid = ownerUid ∧ _ => owner both.1)]
    by_cases nobody : matchingRights posix ownerUid ownerGid uid groups = []
    · rw [if_neg (fun here => inClass.mp here nobody), if_pos nobody, otherMask,
        refused_of_nobody list noAccess i nobody, and_self]
    · rw [if_pos (inClass.mpr nobody), if_neg nobody, groupMask, permits_applyMask,
        Bool.and_eq_true, decide_eq_false unset, Bool.false_or]
      refine and_congr_left fun whole => ?_
      exact refused_of_somebody list noAccess i nobody fun _ => by rw [groupMask, whole]

/-- What a rich list grants that is made from a POSIX list, when it had no entries for access. -/
theorem checkPermission_appendPosixACL (h : posix.Sorted)
    (noAccess : ∀ ace ∈ acl.aceList, ace.isInheritOnly = true) (le : rights ≤ 7) :
    (acl.appendPosixACL posix isDir).checkPermission (rightsMask isDir rights) ownerUid ownerGid uid
        groups = true ↔
          Rights.Within rights (grantedRights posix ownerUid ownerGid uid groups) := by
  cases extended : posix.minimalAcl with
  | true => exact checkPermission_minimal extended noAccess le
  | false =>
    rw [Rights.within_iff_permits le _ isDir]
    simp only [← getLsbD_rightsMask isDir rights]
    exact checkPermission_extended h extended noAccess _

end Granted

/-! ## Agreement with the POSIX check -/

section Agreement

variable {acl : RichACL} {posix : AccessControlList} {isDir : Bool}
  {ownerUid ownerGid uid : UInt32} {groups : List UInt32}

theorem union_congr {all other : List Rights} (eq : ∀ rights, rights ∈ all ↔ rights ∈ other) :
    Rights.union all = Rights.union other := by
  apply BitVec.eq_of_getLsbD_eq
  intro i _
  rw [Rights.getLsbD_union, Rights.getLsbD_union, Bool.eq_iff_iff, any_eq_true, any_eq_true]
  exact exists_congr fun rights => and_congr_left' (eq rights)

/-- More rights let more requests pass. -/
theorem within_applyMask_union {rights one : Rights} {all : List Rights} (le : rights ≤ 7)
    (mem : one ∈ all) (h : Rights.Within rights (posix.applyMask one)) :
    Rights.Within rights (posix.applyMask (Rights.union all)) := by
  rw [Rights.within_iff_permits le _ true] at h ⊢
  intro i asked
  have given := h i asked
  rw [permits_applyMask, Bool.and_eq_true] at given ⊢
  rw [Rights.permits_union]
  exact ⟨any_eq_true.mpr ⟨one, mem, given.1⟩, given.2⟩

theorem mem_namedGroupRights (h : posix.Sorted) {rights : Rights} :
    rights ∈ posix.namedGroupRights groups ↔ ∃ entry ∈ posix.list,
      (entry.type = kNamedGroup ∧ entry.id ∈ groups) ∧ entry.accessRights = rights := by
  unfold namedGroupRights
  simp only [mem_filterMap, Option.map_eq_some_iff, findNamed_eq_some h]
  constructor
  · rintro ⟨id, inGroups, entry, ⟨mem, type, rfl⟩, given⟩
    exact ⟨entry, mem, ⟨type, inGroups⟩, given⟩
  · rintro ⟨entry, mem, ⟨type, inGroups⟩, given⟩
    exact ⟨entry.id, inGroups, entry, ⟨mem, type, rfl⟩, given⟩

/-- Without an entry of the caller, the entries that apply are those of the caller's groups. -/
theorem mem_matchingRights (h : posix.Sorted) (notOwner : uid ≠ ownerUid)
    (unnamed : posix.findNamed kNamedUser uid = none) (rights : Rights) :
    rights ∈ matchingRights posix ownerUid ownerGid uid groups ↔
      rights ∈ (if ownerGid ∈ groups then [posix.groupRights] else []) ++
        posix.namedGroupRights groups := by
  unfold matchingRights
  rw [if_neg notOwner, nil_append, mem_append, mem_append, mem_namedGroupRights h, mem_map]
  refine or_congr_right (exists_congr fun entry => ?_)
  rw [mem_filter, and_assoc]
  refine and_congr_right fun mem => and_congr_left' ?_
  have other : ¬ (entry.type = kNamedUser ∧ entry.id = uid) := by
    intro named
    rw [(findNamed_eq_some h).mpr ⟨mem, named⟩] at unnamed
    exact absurd unnamed (by simp)
  unfold appliesTo
  rw [Bool.or_eq_true, Bool.and_eq_true, Bool.and_eq_true, decide_eq_true_iff, decide_eq_true_iff,
    decide_eq_true_iff, decide_eq_true_iff, or_iff_right other]

theorem not_within_zero {rights : Rights} (asked : rights ≠ 0) : ¬ Rights.Within rights 0 := by
  unfold Rights.Within
  rw [show ~~~(0 : Rights) = BitVec.allOnes 4 from rfl, BitVec.and_allOnes]
  exact asked

/-- A list without entries of named users or groups and without a mask stands for a mode. -/
theorem getEffectiveRights_minimal (minimal : posix.minimalAcl = true) :
    posix.getEffectiveRights ownerUid ownerGid uid groups =
      if uid = ownerUid then posix.ownerRights
      else if ownerGid ∈ groups then posix.groupRights else posix.otherRights := by
  unfold minimalAcl at minimal
  rw [Bool.and_eq_true, decide_eq_true_iff, List.isEmpty_iff] at minimal
  have none : ∀ type id, posix.findNamed type id = none := by
    intro type id
    unfold findNamed fromPlace
    rw [minimal.2]
    rfl
  unfold getEffectiveRights namedGroupRights applyMask
  simp only [none, Option.map_none, minimal.1, ne_eq, not_true_eq_false, if_false,
    filterMap_none, append_nil]
  by_cases owner : uid = ownerUid
  · rw [if_pos owner, if_pos owner]
  · by_cases inGroup : ownerGid ∈ groups
    · simp [owner, inGroup]
    · simp [owner, inGroup]

/-- Without an entry of the caller, both lists grant the same. -/
theorem grantedRights_unnamed (h : posix.Sorted) (extended : posix.minimalAcl = false)
    (notOwner : uid ≠ ownerUid) (unnamed : posix.findNamed kNamedUser uid = none) :
    grantedRights posix ownerUid ownerGid uid groups =
      posix.getEffectiveRights ownerUid ownerGid uid groups := by
  have eq := fun rights =>
    @mem_matchingRights posix ownerUid ownerGid uid groups h notOwner unnamed rights
  unfold grantedRights getEffectiveRights
  rw [extended, if_neg Bool.false_ne_true, if_neg (fun both => notOwner both.1), if_neg notOwner,
    unnamed]
  dsimp only
  by_cases nobody : matchingRights posix ownerUid ownerGid uid groups = []
  · have none : (if ownerGid ∈ groups then [posix.groupRights] else []) ++
        posix.namedGroupRights groups = [] := by
      refine eq_nil_iff_forall_not_mem.mpr fun rights mem => ?_
      rw [← eq, nobody] at mem
      exact not_mem_nil mem
    rw [if_pos nobody, if_neg (by rw [none]; simp)]
  have some : (if ownerGid ∈ groups then [posix.groupRights] else []) ++
      posix.namedGroupRights groups ≠ [] := by
    obtain ⟨rights, mem⟩ := exists_mem_of_ne_nil _ nobody
    exact ne_nil_of_mem ((eq rights).mp mem)
  rw [if_neg nobody, if_pos some, union_congr eq]
  rfl

/-- With entries that apply, all of them count, but for an owner beside a mask. -/
theorem grantedRights_of_mem (extended : posix.minimalAcl = false) {one : Rights}
    (mem : one ∈ matchingRights posix ownerUid ownerGid uid groups)
    (counts : ¬ (uid = ownerUid ∧ posix.maskRights ≠ kMaskUnset)) :
    grantedRights posix ownerUid ownerGid uid groups =
      posix.applyMask (Rights.union (matchingRights posix ownerUid ownerGid uid groups)) := by
  unfold grantedRights
  rw [extended, if_neg Bool.false_ne_true, if_neg counts, if_neg (ne_nil_of_mem mem)]

variable (posix ownerUid ownerGid uid groups) in
/-- When a caller gets the same answer from a POSIX list and from the rich list made from it: the
owning group needs the list not to stand for a mode, and no entry may add to the owner's or the
caller's own. -/
def AnswersAlike (rights : Rights) : Prop :=
  if posix.minimalAcl then
    uid = ownerUid ∨ ownerGid ∉ groups ∨ ¬ Rights.Within rights posix.groupRights
  else if uid = ownerUid then
    posix.maskRights ≠ kMaskUnset ∨ Rights.Within rights posix.ownerRights ∨
      ¬ Rights.Within rights (Rights.union (matchingRights posix ownerUid ownerGid uid groups))
  else
    ∀ entry ∈ posix.findNamed kNamedUser uid,
      Rights.Within rights (posix.applyMask entry.accessRights) ∨
        ¬ Rights.Within rights
          (posix.applyMask (Rights.union (matchingRights posix ownerUid ownerGid uid groups)))

instance (rights : Rights) : Decidable (AnswersAlike posix ownerUid ownerGid uid groups rights) :=
  inferInstanceAs (Decidable (ite _ _ _))

/-- A rich list that is made from a POSIX list grants what the POSIX list grants, exactly where
the two answer alike. -/
theorem checkPermission_iff_getEffectiveRights (sorted : posix.Sorted)
    (noAccess : ∀ ace ∈ acl.aceList, ace.isInheritOnly = true) {rights : Rights}
    (small : rights ≤ 7) (asked : rights ≠ 0) :
    ((acl.appendPosixACL posix isDir).checkPermission
      (rightsMask isDir rights) ownerUid ownerGid uid
        groups = true ↔
      Rights.Within rights (posix.getEffectiveRights ownerUid ownerGid uid groups)) ↔
      AnswersAlike posix ownerUid ownerGid uid groups rights := by
  rw [checkPermission_appendPosixACL sorted noAccess small]
  unfold AnswersAlike
  cases extended : posix.minimalAcl with
  | true =>
    rw [getEffectiveRights_minimal extended, if_pos rfl]
    unfold grantedRights
    rw [extended, if_pos rfl]
    by_cases owner : uid = ownerUid
    · simp [owner]
    by_cases inGroup : ownerGid ∈ groups
    · have none := not_within_zero asked
      rw [if_neg owner, if_pos inGroup, if_neg owner, if_pos inGroup]
      tauto
    · simp [owner, inGroup]
  | false =>
    rw [if_neg Bool.false_ne_true]
    by_cases owner : uid = ownerUid
    · have effective : posix.getEffectiveRights ownerUid ownerGid uid groups =
          posix.ownerRights := by
        unfold getEffectiveRights
        rw [if_pos owner]
      rw [if_pos owner, effective]
      by_cases unset : posix.maskRights = kMaskUnset
      · have whole : ∀ rights, posix.applyMask rights = rights := by
          intro rights
          unfold applyMask
          rw [if_neg (by simp [unset])]
        have own : posix.ownerRights ∈ matchingRights posix ownerUid ownerGid uid groups := by
          simp [matchingRights, owner]
        have more := fun within => @within_applyMask_union posix _ _ _ small own within
        rw [grantedRights_of_mem extended own fun both => both.2 unset]
        rw [whole, whole] at more
        rw [whole]
        tauto
      · unfold grantedRights
        rw [extended, if_neg Bool.false_ne_true, if_pos ⟨owner, unset⟩]
        simp [unset]
    · rw [if_neg owner]
      cases named : posix.findNamed kNamedUser uid with
      | none =>
        rw [grantedRights_unnamed sorted extended owner named]
        simp
      | some entry =>
        have found := (findNamed_eq_some sorted).mp named
        have own : entry.accessRights ∈ matchingRights posix ownerUid ownerGid uid groups := by
          refine mem_append_right _ (mem_map.mpr ⟨entry, ?_, rfl⟩)
          exact mem_filter.mpr ⟨found.1, by simp [appliesTo, found.2]⟩
        have effective : posix.getEffectiveRights ownerUid ownerGid uid groups =
            posix.applyMask entry.accessRights := by
          unfold getEffectiveRights
          rw [if_neg owner, named]
        have more := fun within => @within_applyMask_union posix _ _ _ small own within
        rw [effective, grantedRights_of_mem extended own fun both => owner both.1]
        simp only [Option.mem_def, Option.some.injEq, forall_eq']
        tauto

/-- A caller with an entry of their own and in a group with an entry gets both together. -/
def teamList : AccessControlList where
  list := [⟨1001, kNamedUser, 4⟩, ⟨2000, kNamedGroup, 6⟩]
  ownerRights := 7
  groupRights := 5
  otherRights := 0
  maskRights := 7

/-- The caller's own entry only reads, and still writing is granted. -/
theorem own_entry_does_not_restrict :
    (empty.appendPosixACL teamList false).checkPermission (rightsMask false 2) 1000 100 1001
      [2000] =
        true ∧
      ¬ Rights.Within 2 (teamList.getEffectiveRights 1000 100 1001 [2000]) := by
  decide

/-- Others than the caller with an own entry get the same answer. -/
theorem checkPermission_iff_teamList :
    AnswersAlike teamList 1000 100 1002 [2000] 6 ∧
      ((empty.appendPosixACL teamList false).checkPermission (rightsMask false 6) 1000 100 1002
          [2000] = true ↔
        Rights.Within 6 (teamList.getEffectiveRights 1000 100 1002 [2000])) := by
  have alike : AnswersAlike teamList 1000 100 1002 [2000] 6 := by decide
  exact ⟨alike, (checkPermission_iff_getEffectiveRights (by unfold AccessControlList.Sorted; decide)
    (by simp [empty]) (by decide) (by decide)).mpr alike⟩

end Agreement

end RichACL

end LeilFS.Acl
