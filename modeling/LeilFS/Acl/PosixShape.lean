/-
Module: LeilFS.Acl.PosixShape
Purpose: The entries of a rich list that is made from a POSIX list: allowing entries in the
  order of the POSIX list, denying entries that isolate them, and the entry of everyone.
Trusted boundary: none
-/
import LeilFS.Acl.PosixConvert
import LeilFS.Lib.WordBits

namespace LeilFS.Acl

open Ace List Mask

/-! ## Permissions of rights -/

section Bits

variable (i : Nat)

theorem getLsbD_kReadData : kReadData.getLsbD i = decide (i = 0) := by
  rw [show kReadData = BitVec.twoPow 32 0 from rfl]
  simp [eq_comm]

theorem getLsbD_kPosixModeWrite :
    kPosixModeWrite.getLsbD i = (decide (i = 1) || decide (i = 2) || decide (i = 6)) := by
  rw [show kPosixModeWrite =
    BitVec.twoPow 32 1 ||| BitVec.twoPow 32 2 ||| BitVec.twoPow 32 6 from by decide]
  simp [eq_comm]

theorem getLsbD_kExecute : kExecute.getLsbD i = decide (i = 5) := by
  rw [show kExecute = BitVec.twoPow 32 5 from by decide]
  simp [eq_comm]

theorem getLsbD_kDeleteChild : kDeleteChild.getLsbD i = decide (i = 6) := by
  rw [show kDeleteChild = BitVec.twoPow 32 6 from by decide]
  simp [eq_comm]

theorem getLsbD_directoryOnly (isDir : Bool) :
    (directoryOnly isDir).getLsbD i = (!isDir && decide (i = 6)) := by
  cases isDir with
  | true => simp [directoryOnly]
  | false => simpa [directoryOnly] using getLsbD_kDeleteChild i

end Bits

/-- Whether a permission belongs to some rights: reading to the third bit, writing and, in
directories, removing to the second, executing to the first. -/
def permits (isDir : Bool) (rights : Rights) (i : Nat) : Bool :=
  if i = 0 then rights.getLsbD 2
  else if i = 1 ∨ i = 2 ∨ i = 6 ∧ isDir then rights.getLsbD 1
  else if i = 5 then rights.getLsbD 0
  else false

/-- A bit of rights, as a test on a mode. -/
theorem rights_and_ne_zero (rights : Rights) {k : Nat} (lt : k < 4) :
    (rights.setWidth 16 : Mode) &&& WordBits.mask 16 k ≠ 0 ↔ rights.getLsbD k = true := by
  have test := WordBits.and_mask_ne_zero_iff (by decide) (rights.setWidth 16 : Mode) k
  rw [Nat.mod_eq_of_lt (by omega)] at test
  simpa [show k < 16 by omega] using test

theorem getLsbD_rightsMask (isDir : Bool) (rights : Rights) (i : Nat) :
    (rightsMask isDir rights).getLsbD i = permits isDir rights i := by
  have read := rights_and_ne_zero rights (k := 2) (by decide)
  have write := rights_and_ne_zero rights (k := 1) (by decide)
  have exec := rights_and_ne_zero rights (k := 0) (by decide)
  rw [show WordBits.mask 16 2 = 4 from rfl] at read
  rw [show WordBits.mask 16 1 = 2 from rfl] at write
  rw [show WordBits.mask 16 0 = 1 from rfl] at exec
  have chosen : ∀ (present : Prop) [Decidable present] (mask : Mask),
      (if present then mask else 0).getLsbD i = (decide present && mask.getLsbD i) := by
    intro present _ mask
    by_cases holds : present <;> simp [holds]
  unfold rightsMask convertMode2Mask
  simp only [read, write, exec, BitVec.getLsbD_and, BitVec.getLsbD_or, BitVec.getLsbD_not, chosen,
    kPosixModeRead, kPosixModeExec, getLsbD_kReadData, getLsbD_kPosixModeWrite, getLsbD_kExecute,
    getLsbD_directoryOnly]
  unfold permits
  obtain rfl | rfl | rfl | rfl | rfl | other :
      i = 0 ∨ i = 1 ∨ i = 2 ∨ i = 5 ∨ i = 6 ∨ (i ≠ 0 ∧ i ≠ 1 ∧ i ≠ 2 ∧ i ≠ 5 ∧ i ≠ 6) := by omega
  · simp
  · simp
  · simp
  · simp
  · cases isDir <;> simp
  · simp [other]

theorem permits_and (isDir : Bool) (rights more : Rights) (i : Nat) :
    permits isDir (rights &&& more) i = (permits isDir rights i && permits isDir more i) := by
  unfold permits
  split_ifs <;> simp

theorem permits_of_le (isDir : Bool) (rights : Rights) {i : Nat} (high : 7 ≤ i) :
    permits isDir rights i = false := by
  unfold permits
  rw [if_neg (by omega), if_neg (by omega), if_neg (by omega)]

/-- The permissions of rights fit into an entry. -/
theorem bits_make (type : BitVec 2) (flags : BitVec 9) {mask : Mask} (id : UInt32)
    (small : ∀ i, 21 ≤ i → mask.getLsbD i = false) : (make type flags mask id).bits = mask := by
  apply BitVec.eq_of_getLsbD_eq
  intro i inside
  simp only [bits, make]
  by_cases low : i < 21
  · simp [inside, low]
  · simp [small i (by omega)]

theorem bits_allowAce (isDir : Bool) (rights : Rights) (flags : BitVec 9) (id : UInt32) :
    (RichACL.allowAce flags (rightsMask isDir rights) id).bits = rightsMask isDir rights :=
  bits_make _ _ _ fun i high => by
    rw [getLsbD_rightsMask, permits_of_le isDir rights (by omega)]

/-! ## Identifiers -/

namespace Ace

/-- Whom an entry names. -/
def identity (ace : Ace) : BitVec 9 × UInt32 :=
  (ace.flags &&& (kSpecialWho ||| kIdentifierGroup), ace.id)

theorem isSameIdentifier_iff (ace other : Ace) :
    ace.isSameIdentifier other = true ↔ ace.identity = other.identity := by
  have distrib : ∀ x y m : BitVec 9, (x ^^^ y) &&& m = (x &&& m) ^^^ (y &&& m) := by
    intro x y m
    ext i inside
    simp only [BitVec.getElem_and, BitVec.getElem_xor]
    cases x[i] <;> cases y[i] <;> cases m[i] <;> rfl
  unfold isSameIdentifier identity
  rw [Bool.and_eq_true, decide_eq_true_iff, decide_eq_true_iff, Prod.mk.injEq, distrib]
  exact and_congr_left' BitVec.xor_eq_zero_iff

section Congr

variable {ace other : Ace}

theorem has_congr (eq : ace.identity = other.identity) {flag : BitVec 9}
    (inside : (kSpecialWho ||| kIdentifierGroup) &&& flag = flag) :
      ace.has flag = other.has flag := by
  have flags : ace.flags &&& (kSpecialWho ||| kIdentifierGroup) =
      other.flags &&& (kSpecialWho ||| kIdentifierGroup) := congrArg Prod.fst eq
  unfold has
  rw [← inside, ← BitVec.and_assoc, ← BitVec.and_assoc, flags]

theorem isEveryone_congr (eq : ace.identity = other.identity) :
    ace.isEveryone = other.isEveryone := by
  unfold isEveryone
  rw [has_congr eq (by decide), show ace.id = other.id from congrArg Prod.snd eq]

/-- Entries for access that name the same apply to the same callers. -/
theorem aceMatch_congr (eq : ace.identity = other.identity)
    (only : ace.isInheritOnly = other.isInheritOnly) (ownerUid ownerGid uid : UInt32)
    (groups : List UInt32) : RichACL.aceMatch ownerUid ownerGid uid groups ace =
      RichACL.aceMatch ownerUid ownerGid uid groups other := by
  unfold RichACL.aceMatch isOwner isGroup isUnixUser isUnixGroup
  rw [only, has_congr eq (show _ &&& kSpecialWho = _ by decide),
    has_congr eq (show _ &&& kIdentifierGroup = _ by decide),
    show ace.id = other.id from congrArg Prod.snd eq]

end Congr

end Ace

namespace RichACL

/-! ## Isolating entries one after the other -/

/-- Entries that the isolation of the group class passes over. -/
def passedOver (ace : Ace) : Bool := ace.isInheritOnly || ace.isOwner || ace.isGroup

/-- The denying entry for one that allows, if there is something to deny. -/
def newDeny (deny : Mask) (ace : Ace) : Option Ace :=
  if deny &&& ~~~ace.bits = 0 then none else some (denyAce ace (deny &&& ~~~ace.bits))

variable {deny : Mask} {posix : AccessControlList} {isDir : Bool} {front tail : List Ace}

theorem extendDeny_eq_none {who : Ace} {aces : List Ace}
    (noDeny : ∀ ace ∈ aces, ace.isInheritOnly = false → ace.isDeny = true →
      ace.isSameIdentifier who = false) : extendDeny who deny aces = none := by
  induction aces with
  | nil => rfl
  | cons ace aces ih =>
    have rest := ih fun other mem => noDeny other (mem_cons_of_mem ace mem)
    unfold extendDeny
    split
    · rw [rest, Option.map_none]
    next access =>
      split
      next denies =>
        have other := noDeny ace mem_cons_self (by simpa using access) denies
        rw [if_neg (by simp [other]), rest, Option.map_none]
      · split
        · rfl
        · rw [rest, Option.map_none]

/-- When the entries that name someone are one that allows, with some permissions, the rest of
what is to be denied stays undecided. -/
theorem undecided_eq {who ace : Ace}
    (access : ace.isInheritOnly = false) (eq : ace.isSameIdentifier who = true)
    (others : ∀ other ∈ front ++ tail, other.isInheritOnly = false →
      other.isSameIdentifier who = false) :
    undecided who deny (front ++ ace :: tail) = deny &&& ~~~ace.bits := by
  have passed : ∀ (aces : List Ace) (deny : Mask), (∀ other ∈ aces, other.isInheritOnly = false →
      other.isSameIdentifier who = false) → undecided who deny aces = deny := by
    intro aces deny apart
    refine foldlRecOn (motive := (· = deny)) aces _ rfl fun _ eq other mem => ?_
    cases only : other.isInheritOnly with
    | true => simpa using eq
    | false => simpa [apart other mem only] using eq
  have prev := passed front deny fun other mem => others other (mem_append_left tail mem)
  have after := passed tail (deny &&& ~~~ace.bits) fun other mem =>
    others other (mem_append_right front mem)
  unfold undecided at prev after ⊢
  rw [foldl_append, prev]
  simpa [access, eq] using after

/-- One entry is isolated: its denying entry goes before the last entry. -/
theorem isolateWho_append {who ace last : Ace}
    (access : ace.isInheritOnly = false) (allows : ace.isDeny = false)
    (sameWho : who.identity = ace.identity)
    (flags : who.flags &&& ~~~kInheritanceFlags = ace.flags &&& ~~~kInheritanceFlags)
    (others : ∀ other ∈ front ++ tail ++ [last], other.isInheritOnly = false →
      other.identity ≠ ace.identity) : isolateWho who deny (front ++ ace :: tail ++ [last]) =
      front ++ ace :: (tail ++ (newDeny deny ace).toList) ++ [last] := by
  have sameId : who.id = ace.id := congrArg Prod.snd sameWho
  have apart : ∀ other ∈ front ++ tail ++ [last], other.isInheritOnly = false →
      other.isSameIdentifier who = false := by
    intro other mem accessOther
    rw [Bool.eq_false_iff, ne_eq, isSameIdentifier_iff, sameWho]
    exact others other mem accessOther
  have left : undecided who deny (front ++ ace :: tail ++ [last]) = deny &&& ~~~ace.bits := by
    rw [append_assoc]
    refine undecided_eq access ((isSameIdentifier_iff _ _).mpr sameWho.symm) ?_
    intro other mem
    exact apart other (by simpa using mem)
  have noDeny : extendDeny who (deny &&& ~~~ace.bits) (front ++ ace :: tail).reverse = none := by
    refine extendDeny_eq_none ?_
    intro other mem accessOther denies
    rw [mem_reverse, mem_append, mem_cons] at mem
    rcases mem with inFront | rfl | inTail
    · exact apart other (by simp [inFront]) accessOther
    · simp [allows] at denies
    · exact apart other (by simp [inTail]) accessOther
  have ace' : denyAce who (deny &&& ~~~ace.bits) = denyAce ace (deny &&& ~~~ace.bits) := by
    unfold denyAce
    rw [flags, sameId]
  unfold isolateWho newDeny
  rw [left]
  by_cases nothing : deny &&& ~~~ace.bits = 0
  · rw [if_pos nothing, if_pos nothing, Option.toList_none, append_nil]
  · rw [if_neg nothing, if_neg nothing, dropLast_concat, noDeny, getLast?_concat, ace']
    simp

theorem identity_denyAce (who : Ace) (deny : Mask) :
    (denyAce who deny).identity = who.identity := by
  unfold identity denyAce make
  rw [BitVec.and_assoc]
  rfl

theorem isInheritOnly_denyAce (who : Ace) (deny : Mask) :
    (denyAce who deny).isInheritOnly = false := by
  unfold Ace.isInheritOnly Ace.has denyAce Ace.make
  rw [BitVec.and_assoc, show ~~~Ace.kInheritanceFlags &&& Ace.kInheritOnlyAce = 0 from by decide]
  simp

theorem identity_of_mem_newDeny {ace denying : Ace}
    (made : denying ∈ (newDeny deny ace).toList) : denying.identity = ace.identity := by
  unfold newDeny at made
  split at made
  · simp at made
  · rw [Option.toList_some, mem_singleton] at made
    rw [made, identity_denyAce]

theorem filterMap_reverse_concat {β : Type} (f : Ace → Option β) (aces : List Ace) (ace : Ace) :
    (aces ++ [ace]).reverse.filterMap f = (f ace).toList ++ aces.reverse.filterMap f := by
  rw [reverse_concat, filterMap_cons]
  cases f ace <;> rfl

/-- Entries of the owner and the owning group, and entries that are only inherited, are passed
over. -/
theorem isolateEach_skip {front skipped tail : List Ace}
    (skip : ∀ ace ∈ skipped, passedOver ace = true) :
    isolateEach deny (front.length + skipped.length) (front ++ skipped ++ tail) =
      isolateEach deny front.length (front ++ skipped ++ tail) := by
  induction skipped using reverseRecOn generalizing tail with
  | nil => rfl
  | append_singleton skipped ace ih =>
    have eq : (front ++ (skipped ++ [ace]) ++ tail)[front.length + skipped.length]? = some ace := by
      simp
    have past : (ace.isInheritOnly || ace.isOwner || ace.isGroup) = true := skip ace (by simp)
    have rest : isolateEach deny (front.length + skipped.length) (front ++ skipped ++ ace :: tail) =
        isolateEach deny front.length (front ++ skipped ++ ace :: tail) :=
      ih fun other mem => skip other (mem_append_left _ mem)
    rw [length_append, length_singleton, ← Nat.add_assoc, isolateEach, eq]
    dsimp only
    rw [if_pos past]
    simpa using rest

/-- Every entry of a run of allowing entries is isolated, from the last to the first. -/
theorem isolateEach_append {front todo done : List Ace} {last : Ace}
    (access : ∀ ace ∈ todo, passedOver ace = false) (allows : ∀ ace ∈ todo, ace.isDeny = false)
    (distinct : todo.Pairwise fun ace other => ace.identity ≠ other.identity)
    (apart : ∀ ace ∈ todo, ∀ other ∈ front ++ done ++ [last], other.isInheritOnly = false →
      other.identity ≠ ace.identity) :
    isolateEach deny (front.length + todo.length) (front ++ todo ++ done ++ [last]) =
      isolateEach deny front.length
        (front ++ todo ++ (done ++ todo.reverse.filterMap (newDeny deny)) ++ [last]) := by
  -- the isolated entry and its denying entry join `done`; neither names whom `todo` names
  induction todo using reverseRecOn generalizing done with
  | nil => simp
  | append_singleton todo ace ih =>
    have here : (front ++ (todo ++ [ace]) ++ done ++ [last])[front.length + todo.length]? =
        some ace := by
      simp
    have isolated : (ace.isInheritOnly || ace.isOwner || ace.isGroup) = false :=
      access ace (by simp)
    have live : ace.isInheritOnly = false := by
      simp only [Bool.or_eq_false_iff] at isolated
      exact isolated.1.1
    rw [pairwise_append] at distinct
    have one : isolateWho ace deny (front ++ todo ++ ace :: done ++ [last]) =
        front ++ todo ++ ace :: (done ++ (newDeny deny ace).toList) ++ [last] := by
      refine isolateWho_append live (allows ace (by simp)) rfl rfl ?_
      intro other mem accessOther
      by_cases inTodo : other ∈ todo
      · exact distinct.2.2 other inTodo ace (by simp)
      · refine apart ace (by simp) other ?_ accessOther
        simp only [mem_append, inTodo, or_false] at mem ⊢
        exact mem
    have apart' : ∀ first ∈ todo,
        ∀ other ∈ front ++ ace :: (done ++ (newDeny deny ace).toList) ++ [last],
          other.isInheritOnly = false → other.identity ≠ first.identity := by
      intro first inTodo other mem accessOther
      have differ := distinct.2.2 first inTodo ace (by simp)
      have old := apart first (mem_append_left _ inTodo) other
      simp only [mem_append, mem_cons] at mem old
      rcases mem with (inFront | rfl | inDone | made) | isLast
      · exact old (.inl (.inl inFront)) accessOther
      · exact differ.symm
      · exact old (.inl (.inr inDone)) accessOther
      · rw [identity_of_mem_newDeny made]
        exact differ.symm
      · exact old (.inr isLast) accessOther
    have rest := ih (fun other mem => access other (mem_append_left _ mem))
      (fun other mem => allows other (mem_append_left _ mem)) distinct.1 apart'
    rw [length_append, length_singleton, ← Nat.add_assoc, isolateEach, here]
    dsimp only
    rw [if_neg (by simp [isolated]), filterMap_reverse_concat]
    rw [show front ++ (todo ++ [ace]) ++ done ++ [last] = front ++ todo ++ ace :: done ++ [last] by
      simp, one, rest]
    simp

/-! ## The entries of a POSIX list -/

section Shape

variable (posix : AccessControlList) (isDir : Bool)

/-- The allowing entries of the owner, the owning group and everyone. -/
def ownerAce : Ace :=
  allowAce Ace.kSpecialWho (rightsMask isDir posix.ownerRights) Ace.kOwnerSpecialId

def groupAce : Ace :=
  allowAce Ace.kSpecialWho (rightsMask isDir posix.groupRights) Ace.kGroupSpecialId

def everyoneAce : Ace :=
  allowAce Ace.kSpecialWho (rightsMask isDir posix.otherRights) Ace.kEveryoneSpecialId

/-- The allowing entries of named users and groups. -/
def namedAces : List Ace := (posix.list.filter (·.isNamed)).map (namedAce isDir)

/-- The allowing entries of a POSIX list, but for the one of everyone. -/
def classAces : List Ace := [ownerAce posix isDir, groupAce posix isDir] ++ namedAces posix isDir

/-- The denying entries: whoever has an entry is not to get more from the entry of everyone. -/
def denyAces : List Ace :=
  (newDeny (rightsMask isDir posix.otherRights) (ownerAce posix isDir)).toList ++
    (newDeny (rightsMask isDir posix.otherRights) (groupAce posix isDir)).toList ++
    (namedAces posix isDir).reverse.filterMap (newDeny (rightsMask isDir posix.otherRights))

/-- The entries of a list that is made from a POSIX list, behind those it had. -/
def shaped (base : List Ace) : List Ace :=
  base ++ classAces posix isDir ++ denyAces posix isDir ++ [everyoneAce posix isDir]

end Shape

theorem flags_namedAce (isDir : Bool) (entry : Entry) :
    (namedAce isDir entry).flags = if entry.type = kNamedUser then 0 else kIdentifierGroup := rfl

theorem identity_namedAce (isDir : Bool) (entry : Entry) : (namedAce isDir entry).identity =
      (if entry.type = kNamedUser then 0 else kIdentifierGroup, entry.id) := by
  unfold identity
  rw [flags_namedAce]
  split <;> rfl

/-- Entries that name the same user or group have the same place. -/
theorem key_eq_of_identity {entry later : Entry} (named : entry.isNamed = true)
    (namedLater : later.isNamed = true)
    (eq : (namedAce isDir entry).identity = (namedAce isDir later).identity) :
    entry.key = later.key := by
  rw [identity_namedAce, identity_namedAce, Prod.mk.injEq] at eq
  have sameType : entry.type = later.type := by
    unfold Entry.isNamed at named namedLater
    simp only [Bool.or_eq_true, decide_eq_true_eq] at named namedLater
    rcases named with user | group <;> rcases namedLater with user' | group'
    · rw [user, user']
    · simp [user, group', kNamedUser, kNamedGroup, kIdentifierGroup] at eq
    · simp [user', group, kNamedUser, kNamedGroup, kIdentifierGroup] at eq
    · rw [group, group']
  unfold Entry.key
  rw [sameType, eq.2]

/-- Entries of named users and groups differ in whom they name. -/
theorem identity_namedAces (once : posix.NamedOnce) (isDir : Bool) :
    (namedAces posix isDir).Pairwise fun ace other => ace.identity ≠ other.identity := by
  unfold namedAces
  rw [pairwise_map]
  refine (pairwise_map.mp once).imp_of_mem ?_
  intro entry later mem memberLater apart eq
  exact apart (key_eq_of_identity (of_mem_filter mem) (of_mem_filter memberLater) eq)

section NamedFlags

variable (isDir : Bool) (entry : Entry)

theorem has_special_namedAce : (namedAce isDir entry).has Ace.kSpecialWho = false := by
  unfold Ace.has
  rw [flags_namedAce]
  split <;> decide

theorem isInheritOnly_namedAce : (namedAce isDir entry).isInheritOnly = false := by
  unfold Ace.isInheritOnly Ace.has
  rw [flags_namedAce]
  split <;> decide

theorem has_group_namedAce :
    (namedAce isDir entry).has Ace.kIdentifierGroup = decide (entry.type ≠ kNamedUser) := by
  unfold Ace.has
  rw [flags_namedAce]
  by_cases user : entry.type = kNamedUser
  · rw [user]
    decide
  · simp [user, Ace.kIdentifierGroup]

end NamedFlags

/-- What an entry of a named user or group is not. -/
theorem of_mem_namedAces {ace : Ace} (mem : ace ∈ namedAces posix isDir) :
    passedOver ace = false ∧ ace.isDeny = false ∧ ∀ id, ace.identity ≠ (kSpecialWho, id) := by
  unfold namedAces at mem
  rw [mem_map] at mem
  obtain ⟨entry, _, rfl⟩ := mem
  refine ⟨?_, rfl, ?_⟩
  · unfold passedOver isOwner isGroup
    rw [isInheritOnly_namedAce, has_special_namedAce]
    rfl
  · intro id eq
    rw [identity_namedAce, Prod.mk.injEq] at eq
    split at eq
    · exact absurd eq.1 (by decide)
    · exact absurd eq.1 (by decide)

/-- An entry of the owner, the owning group or everyone is there for access. -/
theorem isInheritOnly_special (mask : Mask) (id : UInt32) :
    (allowAce kSpecialWho mask id).isInheritOnly = false :=
  show decide (kSpecialWho &&& kInheritOnlyAce ≠ 0) = false by decide

theorem has_special (mask : Mask) (id : UInt32) :
    (allowAce kSpecialWho mask id).has kSpecialWho = true :=
  show decide (kSpecialWho &&& kSpecialWho ≠ 0) = true by decide

theorem identity_special (mask : Mask) (id : UInt32) :
    (allowAce kSpecialWho mask id).identity = (kSpecialWho, id) :=
  show (kSpecialWho &&& (kSpecialWho ||| kIdentifierGroup), id) = _ by
    rw [show kSpecialWho &&& (kSpecialWho ||| kIdentifierGroup) = kSpecialWho from
      by decide]

theorem passedOver_of_identity {ace : Ace} {id : UInt32}
    (special : ace.identity = (Ace.kSpecialWho, id))
    (inClass : id = kOwnerSpecialId ∨ id = kGroupSpecialId) : passedOver ace = true := by
  have isSpecial : ace.has Ace.kSpecialWho = true := by
    have flags : ace.flags &&& (Ace.kSpecialWho ||| Ace.kIdentifierGroup) = Ace.kSpecialWho :=
      congrArg Prod.fst special
    have only := congrArg (· &&& Ace.kSpecialWho) flags
    rw [BitVec.and_assoc, show (Ace.kSpecialWho ||| Ace.kIdentifierGroup) &&& Ace.kSpecialWho =
      Ace.kSpecialWho from by decide] at only
    unfold Ace.has
    rw [only]
    decide
  have sameId : ace.id = id := congrArg Prod.snd special
  unfold passedOver isOwner isGroup
  rw [isSpecial, sameId]
  rcases inClass with rfl | rfl
  · simp
  · simp

section Isolation

variable {base : List Ace} {posix : AccessControlList} {isDir : Bool}
  (noAccess : ∀ ace ∈ base, ace.isInheritOnly = true) (deny : Mask)
include noAccess

/-- The owner's entry is isolated [SPEC richacl_posix_convert.cc:77]. -/
theorem isolate_owner : isolateWho (special kOwnerSpecialId) deny
        (base ++ classAces posix isDir ++ [everyoneAce posix isDir]) =
      base ++ classAces posix isDir ++
        (newDeny deny (ownerAce posix isDir)).toList ++ [everyoneAce posix isDir] := by
  have others : ∀ other ∈ base ++ (groupAce posix isDir :: namedAces posix isDir) ++
      [everyoneAce posix isDir], other.isInheritOnly = false →
        other.identity ≠ (ownerAce posix isDir).identity := by
    intro other mem access
    rw [ownerAce, identity_special]
    simp only [mem_append, mem_cons, not_mem_nil, or_false] at mem
    rcases mem with (inBase | rfl | isNamed) | rfl
    · simp [noAccess other inBase] at access
    · rw [groupAce, identity_special]
      simp [kOwnerSpecialId, kGroupSpecialId]
    · exact (of_mem_namedAces isNamed).2.2 _
    · rw [everyoneAce, identity_special]
      simp [kOwnerSpecialId, kEveryoneSpecialId]
  have isolated : isolateWho (special kOwnerSpecialId) deny
      (base ++ ownerAce posix isDir :: (groupAce posix isDir :: namedAces posix isDir) ++
        [everyoneAce posix isDir]) = _ :=
    isolateWho_append (isInheritOnly_special _ _) rfl rfl rfl others
  simpa [classAces] using isolated

/-- The entry of the owning group is isolated. -/
theorem isolate_group : isolateWho (special kGroupSpecialId) deny (base ++ classAces posix isDir ++
          (newDeny deny (ownerAce posix isDir)).toList ++ [everyoneAce posix isDir]) =
      base ++ classAces posix isDir ++ ((newDeny deny (ownerAce posix isDir)).toList ++
          (newDeny deny (groupAce posix isDir)).toList) ++ [everyoneAce posix isDir] := by
  have others : ∀ other ∈ base ++ [ownerAce posix isDir] ++ (namedAces posix isDir ++
      (newDeny deny (ownerAce posix isDir)).toList) ++ [everyoneAce posix isDir],
        other.isInheritOnly = false → other.identity ≠ (groupAce posix isDir).identity := by
    intro other mem access
    rw [groupAce, identity_special]
    simp only [mem_append, mem_cons, not_mem_nil, or_false] at mem
    rcases mem with ((inBase | rfl) | isNamed | made) | rfl
    · simp [noAccess other inBase] at access
    · rw [ownerAce, identity_special]
      simp [kOwnerSpecialId, kGroupSpecialId]
    · exact (of_mem_namedAces isNamed).2.2 _
    · rw [identity_of_mem_newDeny made, ownerAce, identity_special]
      simp [kOwnerSpecialId, kGroupSpecialId]
    · rw [everyoneAce, identity_special]
      simp [kGroupSpecialId, kEveryoneSpecialId]
  have isolated : isolateWho (special kGroupSpecialId) deny
      (base ++ [ownerAce posix isDir] ++ groupAce posix isDir :: (namedAces posix isDir ++
        (newDeny deny (ownerAce posix isDir)).toList) ++ [everyoneAce posix isDir]) = _ :=
    isolateWho_append (isInheritOnly_special _ _) rfl rfl rfl others
  simpa [classAces] using isolated

/-- The entries of named users and groups are isolated, and those before and after them are
passed over [SPEC richacl_compat.cc:305-314]. -/
theorem isolate_named (once : posix.NamedOnce) {denied : List Ace}
    (classes : ∀ ace ∈ denied, ace.identity = (ownerAce posix isDir).identity ∨
      ace.identity = (groupAce posix isDir).identity) :
    isolateEach deny (base ++ classAces posix isDir ++ denied).length
        (base ++ classAces posix isDir ++ denied ++ [everyoneAce posix isDir]) =
      base ++ classAces posix isDir ++
        (denied ++ (namedAces posix isDir).reverse.filterMap (newDeny deny)) ++
        [everyoneAce posix isDir] := by
  have skipFront : ∀ ace ∈ base ++ [ownerAce posix isDir, groupAce posix isDir],
      passedOver ace = true := by
    intro ace mem
    simp only [mem_append, mem_cons, not_mem_nil, or_false] at mem
    rcases mem with inBase | rfl | rfl
    · unfold passedOver
      rw [noAccess ace inBase, Bool.true_or, Bool.true_or]
    · exact passedOver_of_identity (identity_special _ _) (.inl rfl)
    · exact passedOver_of_identity (identity_special _ _) (.inr rfl)
  have skipDenied : ∀ ace ∈ denied, passedOver ace = true := by
    intro ace mem
    rcases classes ace mem with owner | group
    · exact passedOver_of_identity (owner.trans (identity_special _ _)) (.inl rfl)
    · exact passedOver_of_identity (group.trans (identity_special _ _)) (.inr rfl)
  have apart : ∀ ace ∈ namedAces posix isDir, ∀ other ∈
      base ++ [ownerAce posix isDir, groupAce posix isDir] ++ denied ++ [everyoneAce posix isDir],
        other.isInheritOnly = false → other.identity ≠ ace.identity := by
    intro ace isNamed other mem access
    have notSpecial := (of_mem_namedAces isNamed).2.2
    simp only [mem_append, mem_cons, not_mem_nil, or_false] at mem
    rcases mem with ((inBase | rfl | rfl) | made) | rfl
    · simp [noAccess other inBase] at access
    · rw [ownerAce, identity_special]
      exact (notSpecial _).symm
    · rw [groupAce, identity_special]
      exact (notSpecial _).symm
    · rcases classes other made with owner | group
      · rw [owner, ownerAce, identity_special]
        exact (notSpecial _).symm
      · rw [group, groupAce, identity_special]
        exact (notSpecial _).symm
    · rw [everyoneAce, identity_special]
      exact (notSpecial _).symm
  rw [length_append, isolateEach_skip skipDenied, classAces, ← append_assoc base, length_append,
    isolateEach_append (fun ace isNamed => (of_mem_namedAces isNamed).1)
      (fun ace isNamed => (of_mem_namedAces isNamed).2.1) (identity_namedAces once isDir) apart]
  rw [append_assoc]
  have front : ∀ tail, isolateEach deny (length ([] : List Ace) +
      (base ++ [ownerAce posix isDir, groupAce posix isDir]).length)
      ([] ++ (base ++ [ownerAce posix isDir, groupAce posix isDir]) ++ tail) = _ :=
    fun tail => isolateEach_skip skipFront
  simpa [isolateEach] using front _

end Isolation

theorem isEveryone_everyoneAce : (everyoneAce posix isDir).isEveryone = true :=
  show (decide (kSpecialWho &&& kSpecialWho ≠ 0) &&
    decide (kEveryoneSpecialId = kEveryoneSpecialId)) = true by decide

theorem newDeny_zero (ace : Ace) : newDeny 0 ace = none := by
  have nothing : (0 : Mask) &&& ~~~ace.bits = 0 := BitVec.zero_and
  unfold newDeny
  rw [if_pos nothing]

/-- The entries of a list that is made from a POSIX list, when it had none for access. -/
theorem aceList_appendPosixACL {acl : RichACL} (isDir : Bool)
    (once : posix.NamedOnce) (extended : posix.minimalAcl = false)
    (noAccess : ∀ ace ∈ acl.aceList, ace.isInheritOnly = true) :
    (acl.appendPosixACL posix isDir).aceList = shaped posix isDir acl.aceList := by
  have entries : acl.aceList ++ posixAces posix isDir =
      acl.aceList ++ classAces posix isDir ++ [everyoneAce posix isDir] := by
    unfold posixAces classAces namedAces ownerAce groupAce everyoneAce
    simp
  have list : (acl.appendPosixACL posix isDir).aceList =
      isolateGroupClass 0 (rightsMask isDir posix.otherRights)
        (isolateWho (special kOwnerSpecialId) (rightsMask isDir posix.otherRights)
          (acl.aceList ++ posixAces posix isDir)) := by
    unfold appendPosixACL
    rw [extended]
    rw [if_neg (by decide)]
    split <;> rfl
  have access : (everyoneAce posix isDir).isInheritOnly = false := isInheritOnly_special _ _
  have everyone : (everyoneAce posix isDir).isEveryone = true := isEveryone_everyoneAce
  have bits : rightsMask isDir posix.otherRights ||| ((everyoneAce posix isDir).bits &&& ~~~0) =
      rightsMask isDir posix.otherRights := by
    rw [everyoneAce, bits_allowAce, show ~~~(0 : Mask) = BitVec.allOnes 32 from rfl,
      BitVec.and_allOnes, BitVec.or_self]
  rw [shaped, list, entries, isolate_owner noAccess, isolateGroupClass, getLast?_concat]
  dsimp only
  rw [access, everyone, bits, if_neg (by decide)]
  unfold denyAces
  generalize rightsMask isDir posix.otherRights = deny
  by_cases nothing : deny = 0
  · rw [nothing, newDeny_zero, newDeny_zero]
    have none : (namedAces posix isDir).reverse.filterMap (newDeny 0) = [] :=
      filterMap_eq_nil_iff.mpr fun ace _ => newDeny_zero ace
    rw [none]
    simp
  rw [if_neg nothing, isolate_group noAccess, length_append, length_singleton,
    Nat.add_sub_cancel, isolate_named noAccess _ once]
  intro ace mem
  rw [mem_append] at mem
  exact mem.imp identity_of_mem_newDeny identity_of_mem_newDeny

/-! ## The first entry that speaks of something -/

section First

variable {posix : AccessControlList} {isDir : Bool}

theorem mem_denyAces {ace : Ace} : ace ∈ denyAces posix isDir ↔ ∃ entry ∈ classAces posix isDir,
      newDeny (rightsMask isDir posix.otherRights) entry = some ace := by
  unfold denyAces classAces
  simp

theorem forall_mem_classAces {P : Ace → Prop} (owner : P (ownerAce posix isDir))
    (group : P (groupAce posix isDir)) (named : ∀ entry, P (namedAce isDir entry)) :
    ∀ ace ∈ classAces posix isDir, P ace := by
  unfold classAces namedAces
  simp only [forall_mem_append, forall_mem_cons, forall_mem_map]
  exact ⟨⟨owner, group, nofun⟩, fun entry _ => named entry⟩

theorem isAllow_of_mem_classAces :
    ∀ ace ∈ classAces posix isDir, ace.type = kAccessAllowedAceType :=
  forall_mem_classAces rfl rfl fun _ => rfl

theorem isDeny_of_mem_denyAces {ace : Ace} (mem : ace ∈ denyAces posix isDir) :
    ace.type = kAccessDeniedAceType := by
  obtain ⟨entry, _, made⟩ := mem_denyAces.mp mem
  unfold newDeny at made
  split at made
  · simp at made
  · rw [← Option.some.inj made]
    rfl

/-- A search goes through the allowing entries, then the denying ones, then the one of
everyone. -/
theorem find?_shape {base : List Ace} {P : Ace → Bool} (noBase : ∀ ace ∈ base, P ace = false) :
    ((shaped posix isDir base).find? P).map (·.type) =
      if (classAces posix isDir).any P then some kAccessAllowedAceType
      else if (denyAces posix isDir).any P then some kAccessDeniedAceType
      else if P (everyoneAce posix isDir) then some kAccessAllowedAceType else none := by
  have found : ∀ (aces : List Ace) (type : BitVec 2), (∀ ace ∈ aces, ace.type = type) →
      (aces.find? P).map (·.type) = if aces.any P then some type else none := by
    intro aces type all
    cases search : aces.find? P with
    | none =>
      rw [find?_eq_none, ← any_eq_false] at search
      rw [search]
      rfl
    | some ace =>
      have inside := mem_of_find?_eq_some search
      rw [any_eq_true.mpr ⟨ace, inside, find?_some search⟩, Option.map_some, all ace inside]
      rfl
  have nothing : base.find? P = none := find?_eq_none.mpr fun ace mem => by
    simp [noBase ace mem]
  have last := found [everyoneAce posix isDir] kAccessAllowedAceType (by
    intro ace mem
    rw [mem_singleton.mp mem]
    rfl)
  rw [shaped, find?_append, find?_append, find?_append, nothing, Option.none_or,
    Option.map_or, Option.map_or, found _ _ isAllow_of_mem_classAces,
    found _ _ fun ace => isDeny_of_mem_denyAces, last]
  simp only [any_cons, any_nil, Bool.or_false]
  split
  · rfl
  · split
    · rfl
    · rfl

end First

/-! ## What entries allow, bit by bit -/

theorem getLsbD_applyAce (ace : Ace) (allowed : Mask) (i : Nat) : (applyAce ace allowed).getLsbD i =
      if ((ace.isAllow || ace.isDeny) && ace.bits.getLsbD i) = true then ace.isAllow
      else allowed.getLsbD i := by
  unfold applyAce
  by_cases allows : ace.isAllow = true
  · cases bit : ace.bits.getLsbD i <;> simp [allows, bit]
  by_cases denies : ace.isDeny = true
  · by_cases lt : i < 32
    · rw [if_neg allows, if_pos denies, BitVec.getLsbD_and, BitVec.getLsbD_not]
      cases bit : ace.bits.getLsbD i <;> simp [allows, denies, lt]
    · rw [BitVec.getLsbD_of_ge _ i (by omega), BitVec.getLsbD_of_ge _ i (by omega),
        BitVec.getLsbD_of_ge _ i (by omega)]
      simp
  · simp [allows, denies]

/-- The first entry that speaks of a permission decides about it. -/
theorem getLsbD_allowedToWho (acl : RichACL) (who : Ace) (i : Nat) :
    (acl.allowedToWho who).getLsbD i = decide ((acl.aceList.find? fun ace => !ace.isInheritOnly &&
        (ace.isSameIdentifier who || ace.isEveryone) &&
          ((ace.isAllow || ace.isDeny) && ace.bits.getLsbD i)).map (·.type) =
        some kAccessAllowedAceType) := by
  unfold allowedToWho
  induction acl.aceList with
  | nil => simp
  | cons ace aces ih =>
    rw [foldr_cons, find?_cons]
    by_cases speaks : (!ace.isInheritOnly && (ace.isSameIdentifier who || ace.isEveryone)) = true
    · rw [if_pos speaks, speaks, getLsbD_applyAce, ih]
      cases decides : (ace.isAllow || ace.isDeny) && ace.bits.getLsbD i with
      | true => simp [isAllow]
      | false => simp
    · rw [if_neg speaks, ih]
      simp [speaks]

section Entries

variable {posix : AccessControlList} {isDir : Bool}

/-- The entries of a POSIX list differ in whom they name. -/
theorem nodup_identity_classAces (h : posix.Sorted) :
    ((classAces posix isDir).map identity).Nodup := by
  unfold classAces List.Nodup
  rw [pairwise_map]
  have named : ∀ ace ∈ namedAces posix isDir, ∀ id, (kSpecialWho, id) ≠ ace.identity :=
    fun ace mem id => ((of_mem_namedAces mem).2.2 id).symm
  rw [cons_append, cons_append, pairwise_cons, pairwise_cons,
    ownerAce, groupAce, identity_special, identity_special]
  refine ⟨?_, fun ace mem => named ace mem _, identity_namedAces h.namedOnce isDir⟩
  intro ace mem
  rcases mem_cons.mp mem with rfl | isNamed
  · rw [identity_special]
    simp [kOwnerSpecialId, kGroupSpecialId]
  · exact named ace isNamed _

theorem isEveryone_of_mem_classAces : ∀ ace ∈ classAces posix isDir, ace.isEveryone = false := by
  unfold isEveryone
  refine forall_mem_classAces ?_ ?_ fun entry => ?_
  · rw [ownerAce, has_special]
    exact show (true && decide (kOwnerSpecialId = kEveryoneSpecialId)) = false by decide
  · rw [groupAce, has_special]
    exact show (true && decide (kGroupSpecialId = kEveryoneSpecialId)) = false by decide
  · rw [has_special_namedAce, Bool.false_and]

theorem isInheritOnly_of_mem_classAces : ∀ ace ∈ classAces posix isDir, ace.isInheritOnly = false :=
  forall_mem_classAces (isInheritOnly_special _ _) (isInheritOnly_special _ _)
    (isInheritOnly_namedAce isDir)

/-- A denying entry names whom the allowing entry names. -/
theorem of_newDeny {deny : Mask} {entry denying : Ace} (made : newDeny deny entry = some denying) :
    denying.identity = entry.identity ∧ denying.isInheritOnly = false := by
  unfold newDeny at made
  split at made
  · simp at made
  · rw [← Option.some.inj made]
    exact ⟨identity_denyAce _ _, isInheritOnly_denyAce _ _⟩

/-- What a denying entry speaks of. -/
theorem bits_of_newDeny {entry denying : Ace} {rights : Rights}
    (made : newDeny (rightsMask isDir rights) entry = some denying) (i : Nat) :
    denying.bits.getLsbD i = (permits isDir rights i && !entry.bits.getLsbD i) := by
  unfold newDeny at made
  split at made
  · simp at made
  have bit : ∀ j, (rightsMask isDir rights &&& ~~~entry.bits).getLsbD j =
      (permits isDir rights j && !entry.bits.getLsbD j) := by
    intro j
    rw [BitVec.getLsbD_and, getLsbD_rightsMask]
    by_cases low : j < 7
    · simp [show j < 32 by omega]
    · simp [permits_of_le isDir rights (by omega : 7 ≤ j)]
  rw [← Option.some.inj made, denyAce, bits_make, bit]
  intro j high
  rw [bit, permits_of_le isDir rights (by omega), Bool.false_and]

/-- There is a denying entry for every permission of everyone that an entry does not give. -/
theorem exists_newDeny {entry : Ace} {rights : Rights} {i : Nat}
    (other : permits isDir rights i = true) (missing : entry.bits.getLsbD i = false) :
    ∃ denying, newDeny (rightsMask isDir rights) entry = some denying := by
  unfold newDeny
  rw [if_neg]
  · exact ⟨_, rfl⟩
  · intro nothing
    have bit := congrArg (·.getLsbD i) nothing
    have low : i < 32 := by
      by_contra high
      rw [permits_of_le isDir rights (by omega)] at other
      exact Bool.noConfusion other
    rw [BitVec.getLsbD_and, BitVec.getLsbD_not, getLsbD_rightsMask, other, missing] at bit
    simp [low] at bit

theorem getLsbD_everyoneAce (i : Nat) :
    (everyoneAce posix isDir).bits.getLsbD i = permits isDir posix.otherRights i := by
  rw [everyoneAce, bits_allowAce, getLsbD_rightsMask]

end Entries

/-- A search for the first entry about a permission, among the entries that speak of someone:
the denying entries and the entry of everyone are found whenever they speak of the
permission. -/
structure Decides (posix : AccessControlList) (isDir : Bool) (base : List Ace) (i : Nat)
    (speaks found : Ace → Bool) : Prop where
  base : ∀ ace ∈ base, found ace = false
  sound : ∀ ace, found ace = true → speaks ace = true ∧ ace.bits.getLsbD i = true
  complete : ∀ ace ∈ denyAces posix isDir ++ [everyoneAce posix isDir],
    speaks ace = true → ace.bits.getLsbD i = true → found ace = true
  deny : ∀ {entry denying}, entry ∈ classAces posix isDir →
    newDeny (rightsMask isDir posix.otherRights) entry = some denying →
      speaks denying = speaks entry
  everyone : speaks (everyoneAce posix isDir) = true

namespace Decides

variable {posix : AccessControlList} {isDir : Bool} {base : List Ace} {i : Nat}
  {speaks found : Ace → Bool} (search : Decides posix isDir base i speaks found)
include search

/-- An allowing entry that is found decides. -/
theorem allowed {entry : Ace} (mem : entry ∈ classAces posix isDir) (eq : found entry = true) :
    ((shaped posix isDir base).find? found).map (·.type) = some kAccessAllowedAceType := by
  rw [find?_shape search.base, if_pos (any_eq_true.mpr ⟨entry, mem, eq⟩)]

/-- Allowing entries without the permission are not found. -/
theorem not_any_classAces
    (missing : ∀ ace ∈ classAces posix isDir, speaks ace = true → ace.bits.getLsbD i = false) :
    ¬ (classAces posix isDir).any found = true := by
  intro some
  obtain ⟨ace, inside, here⟩ := any_eq_true.mp some
  have both := search.sound ace here
  rw [missing ace inside both.1] at both
  exact Bool.noConfusion both.2

theorem not_found_everyoneAce (other : permits isDir posix.otherRights i = false) :
    ¬ found (everyoneAce posix isDir) = true := by
  intro here
  have both := search.sound _ here
  rw [getLsbD_everyoneAce, other] at both
  exact Bool.noConfusion both.2

/-- Nobody with an entry is allowed what no entry of theirs gives: the denying entries stand
before the entry of everyone. -/
theorem notAllowed {entry : Ace} (mem : entry ∈ classAces posix isDir) (named : speaks entry = true)
    (missing : ∀ ace ∈ classAces posix isDir, speaks ace = true → ace.bits.getLsbD i = false) :
    ((shaped posix isDir base).find? found).map (·.type) ≠ some kAccessAllowedAceType := by
  rw [find?_shape search.base, if_neg (search.not_any_classAces missing)]
  cases other : permits isDir posix.otherRights i with
  | true =>
    obtain ⟨denying, made⟩ := exists_newDeny other (missing entry mem named)
    have isDenying := mem_denyAces.mpr ⟨entry, mem, made⟩
    have eq : found denying = true := by
      refine search.complete denying (mem_append_left _ isDenying) ?_ ?_
      · rw [search.deny mem made, named]
      · rw [bits_of_newDeny made, other, missing entry mem named]
        rfl
    rw [if_pos (any_eq_true.mpr ⟨denying, isDenying, eq⟩)]
    decide
  | false =>
    rw [if_neg (search.not_found_everyoneAce other)]
    split <;> decide

/-- Whoever has no entry is allowed what everyone is. -/
theorem everyoneElse (unnamed : ∀ ace ∈ classAces posix isDir, speaks ace = false) :
    ((shaped posix isDir base).find? found).map (·.type) = some kAccessAllowedAceType ↔
      permits isDir posix.otherRights i = true := by
  have noAllow := search.not_any_classAces fun ace inside named =>
    Bool.noConfusion ((unnamed ace inside).symm.trans named)
  have noDeny : ¬ (denyAces posix isDir).any found = true := by
    intro some
    obtain ⟨ace, inside, here⟩ := any_eq_true.mp some
    obtain ⟨entry, mem, made⟩ := mem_denyAces.mp inside
    have both := search.sound ace here
    rw [search.deny mem made, unnamed entry mem] at both
    exact Bool.noConfusion both.1
  rw [find?_shape search.base, if_neg noAllow, if_neg noDeny]
  cases other : permits isDir posix.otherRights i with
  | true =>
    have here := search.complete _ (mem_append_right _ (mem_singleton.mpr rfl))
      search.everyone ((getLsbD_everyoneAce i).trans other)
    simp [here]
  | false => simp [search.not_found_everyoneAce other]

end Decides

section Allowed

variable {acl : RichACL} {base : List Ace} {posix : AccessControlList} {isDir : Bool}

/-- Entries of the same identifier and of everyone, as `allowedToWho` looks for them. -/
theorem decides_allowedToWho (noAccess : ∀ ace ∈ base, ace.isInheritOnly = true) (who : Ace)
    (i : Nat) : Decides posix isDir base i
      (fun ace => !ace.isInheritOnly && (ace.isSameIdentifier who || ace.isEveryone))
      (fun ace => !ace.isInheritOnly && (ace.isSameIdentifier who || ace.isEveryone) &&
        ((ace.isAllow || ace.isDeny) && ace.bits.getLsbD i)) where
  base ace inBase := by simp [noAccess ace inBase]
  sound ace here := by
    simp only [Bool.and_eq_true] at here ⊢
    exact ⟨here.1, here.2.2⟩
  complete ace mem speaks bit := by
    have decided : (ace.isAllow || ace.isDeny) = true := by
      rcases mem_append.mp mem with denying | last
      · simp [isDeny, isDeny_of_mem_denyAces denying]
      · rw [mem_singleton.mp last]
        rfl
    rw [speaks, decided, bit]
    rfl
  deny := by
    intro entry denying mem made
    have eq := of_newDeny made
    have sameWho : denying.isSameIdentifier who = entry.isSameIdentifier who := by
      rw [Bool.eq_iff_iff, isSameIdentifier_iff, isSameIdentifier_iff, eq.1]
    rw [eq.2, isInheritOnly_of_mem_classAces _ mem, sameWho, isEveryone_congr eq.1]
  everyone := by
    have access : (everyoneAce posix isDir).isInheritOnly = false := isInheritOnly_special _ _
    have all : (everyoneAce posix isDir).isEveryone = true := isEveryone_everyoneAce
    rw [access, all]
    simp

section Allowed

variable (list : acl.aceList = shaped posix isDir base)
  (noAccess : ∀ ace ∈ base, ace.isInheritOnly = true)
include list noAccess

/-- Whoever an entry names is allowed what the entry says: a denying entry takes away what the
entry of everyone would add. -/
theorem allowedToWho_classAce (h : posix.Sorted) {entry who : Ace}
    (mem : entry ∈ classAces posix isDir) (eq : who.identity = entry.identity) :
    acl.allowedToWho who = entry.bits := by
  have names : entry.isSameIdentifier who = true := (isSameIdentifier_iff _ _).mpr eq.symm
  have allows : entry.isAllow = true := decide_eq_true (isAllow_of_mem_classAces _ mem)
  have access := isInheritOnly_of_mem_classAces _ mem
  apply BitVec.eq_of_getLsbD_eq
  intro i _
  have search : Decides posix isDir base i _ _ := decides_allowedToWho noAccess who i
  rw [getLsbD_allowedToWho, list]
  cases given : entry.bits.getLsbD i with
  | true =>
    rw [search.allowed mem (by simp [access, names, allows, given])]
    decide
  | false =>
    refine decide_eq_false (search.notAllowed mem (by simp [access, names]) ?_)
    intro ace inside speaks
    rw [isEveryone_of_mem_classAces _ inside, Bool.or_false, Bool.and_eq_true,
      isSameIdentifier_iff, eq] at speaks
    rw [inj_on_of_nodup_map (nodup_identity_classAces h) inside mem speaks.2, given]

/-- Everyone is allowed what the others are. -/
theorem allowedToWho_everyone :
    acl.allowedToWho (special kEveryoneSpecialId) = rightsMask isDir posix.otherRights := by
  apply BitVec.eq_of_getLsbD_eq
  intro i _
  have search : Decides posix isDir base i _ _ :=
    decides_allowedToWho noAccess (special kEveryoneSpecialId) i
  rw [getLsbD_allowedToWho, list, getLsbD_rightsMask, Bool.eq_iff_iff, decide_eq_true_iff]
  refine search.everyoneElse ?_
  intro ace inside
  have everyone : (special kEveryoneSpecialId).isEveryone = true := by decide
  have other : ace.isSameIdentifier (special kEveryoneSpecialId) = false := by
    by_contra eq
    rw [Bool.not_eq_false, isSameIdentifier_iff] at eq
    rw [← isEveryone_congr eq, isEveryone_of_mem_classAces _ inside] at everyone
    exact Bool.noConfusion everyone
  rw [other, isEveryone_of_mem_classAces _ inside, Bool.or_false, Bool.and_false]

end Allowed

/-- The list that is made from a POSIX list that stands for a mode: masks that decide. -/
theorem appendPosixACL_minimal (acl : RichACL) (minimal : posix.minimalAcl = true) :
    acl.appendPosixACL posix isDir =
        ⟨rightsMask isDir posix.ownerRights, rightsMask isDir posix.groupRights,
          rightsMask isDir posix.otherRights, kMasked ||| kWriteThrough, acl.aceList⟩ ∧
      (acl.appendPosixACL posix isDir).has kMasked = true ∧
      (acl.appendPosixACL posix isDir).has kWriteThrough = true := by
  unfold appendPosixACL
  rw [minimal]
  exact ⟨rfl, show decide ((kMasked ||| kWriteThrough) &&& kMasked ≠ 0) = true by decide,
    show decide ((kMasked ||| kWriteThrough) &&& kWriteThrough ≠ 0) = true by decide⟩

/-- The list that is made from a POSIX list with entries of named users or groups, or with a
mask. -/
theorem appendPosixACL_extended (acl : RichACL) (h : posix.Sorted)
    (extended : posix.minimalAcl = false)
    (noAccess : ∀ ace ∈ acl.aceList, ace.isInheritOnly = true) : acl.appendPosixACL posix isDir =
      { ownerMask := rightsMask isDir posix.ownerRights
        groupMask := rightsMask isDir
          (if posix.maskRights ≠ kMaskUnset then posix.maskRights else posix.groupRights)
        otherMask := rightsMask isDir posix.otherRights
        flags := if posix.maskRights ≠ kMaskUnset then kMasked else 0
        aceList := shaped posix isDir acl.aceList } := by
  have list := aceList_appendPosixACL isDir h.namedOnce extended noAccess
  unfold appendPosixACL at list ⊢
  rw [extended, if_neg Bool.false_ne_true] at list ⊢
  dsimp only at list ⊢
  have aces : (isolateGroupClass 0 (rightsMask isDir posix.otherRights)
      (isolateWho (special kOwnerSpecialId) (rightsMask isDir posix.otherRights)
        (acl.aceList ++ posixAces posix isDir))) = shaped posix isDir acl.aceList := by
    split at list <;> exact list
  rw [aces]
  have owner : allowedToWho ⟨0, 0, 0, 0, shaped posix isDir acl.aceList⟩
      (special kOwnerSpecialId) = (ownerAce posix isDir).bits :=
    allowedToWho_classAce rfl noAccess h (by simp [classAces]) rfl
  have group : allowedToWho ⟨0, 0, 0, 0, shaped posix isDir acl.aceList⟩
      (special kGroupSpecialId) = (groupAce posix isDir).bits :=
    allowedToWho_classAce rfl noAccess h (by simp [classAces]) rfl
  rw [owner, group, allowedToWho_everyone rfl noAccess, ownerAce, groupAce, bits_allowAce,
    bits_allowAce]
  split <;> rfl

end Allowed

end RichACL

end LeilFS.Acl
