/-
Module: LeilFS.Acl.AclLog
Purpose: Changes of access control lists as lines of the log, and the replay of these lines.
Trusted boundary: none
-/
import LeilFS.Acl.PosixText
import LeilFS.Acl.ReadBack
import LeilFS.Acl.RichText

namespace LeilFS.Acl

open LeilFS.Nodes (InodeId)

open AccessControlList List LogText Mask

/-! ## Lines -/

/-- What a client can ask of the access control list of a node. -/
inductive AclChange where
  | rich (acl : RichACL)
  | posix (type : AclType) (acl : AccessControlList)
deriving Repr, DecidableEq

def setAclWord : List Char := ['S', 'E', 'T', 'A', 'C', 'L']

def setRichAclWord : List Char := ['S', 'E', 'T', 'R', 'I', 'C', 'H', 'A', 'C', 'L']

def AclType.letter (type : AclType) : Char := if type = .access then 'a' else 'd'

/-- [SPEC filesystem_operations.cc:4134] -/
def AclType.ofLetter : Option Char → Option AclType
  | some 'd' => some .default
  | some 'a' => some .access
  | _ => none

/-- The entry that is to be logged
[SPEC filesystem_operations.cc:4067-4068, 4095-4096]. -/
def AclChange.entry (id : InodeId) : AclChange → List Char
  | .rich acl => setRichAclWord ++ '(' :: (number id ++ ',' :: (acl.toString ++ [')']))
  | .posix type acl =>
      setAclWord ++ '(' :: (number id ++ ',' :: type.letter :: ',' :: (acl.toString ++ [')']))

/-- `kMaxLogLineSize - kMaxTimestampSize` -/
def kMaxEntrySize : Nat := 199980

/-- [SPEC filesystem_operations.cc:88-130] The buffer of the line has room for a part of
the entry; the end of a longer one is lost. -/
def changeLog (ts : UInt32) (entry : List Char) : List Char :=
  number ts.toNat ++ '|' :: entry.take (kMaxEntrySize - 1)

namespace Inodes

/-- [SPEC filesystem_operations.cc:4047-4102] The nodes afterwards, and the line that is
logged. -/
def changeAcl (s : Inodes) (context : Context) (inode : InodeId) (change : AclChange) :
    Except Refusal (Inodes × List Char) := do
  let id ← context.getNode inode
  let some node := s.node id | throw .enoent
  let s' ← match change with
    | .rich acl => s.setRichAcl id node acl context.ts
    | .posix type acl => s.setPosixAcl type id node acl context.ts
  return (s', changeLog context.ts (change.entry id))

/-! ## Replay -/

/-- [SPEC filesystem_operations.cc:4119-4140] -/
def applySetAcl (s : Inodes) (ts : UInt32) (inode : InodeId) (aclType : Option Char)
    (aclString : List Char) : Option Inodes := do
  let acl ← AccessControlList.fromString aclString
  let node ← s.node inode
  let type ← AclType.ofLetter aclType
  (s.setPosixAcl type inode node acl ts).toOption

/-- [SPEC filesystem_operations.cc:4144-4158] -/
def applySetRichAcl (s : Inodes) (ts : UInt32) (inode : InodeId) (aclString : List Char) :
    Option Inodes := do
  let acl ← RichACL.fromString aclString
  let node ← s.node inode
  (s.setRichAcl inode node acl ts).toOption

/-- [SPEC restore.cc:896-925] -/
def doSetAcl (s : Inodes) (ts : UInt32) (ptr : List Char) : Option Inodes := do
  let ptr ← eat '(' ptr
  let (inode, ptr) := scanNumber ptr
  let ptr ← eat ',' ptr
  let aclType := ptr.head?
  let ptr ← eat ',' ptr.tail
  let (aclString, _) ← scanPath ')' ptr
  s.applySetAcl ts inode aclType aclString

/-- [SPEC restore.cc:927-952] -/
def doSetRichAcl (s : Inodes) (ts : UInt32) (ptr : List Char) : Option Inodes := do
  let ptr ← eat '(' ptr
  let (inode, ptr) := scanNumber ptr
  let ptr ← eat ',' ptr
  let (aclString, _) ← scanPath ')' ptr
  s.applySetRichAcl ts inode aclString

/-- [SPEC restore.cc:1182-1341] The nodes after a line with one of the two commands, if it
is accepted. -/
def restoreLine (s : Inodes) (line : List Char) : Option Inodes := do
  let (ts, ptr) := scanNumber line
  let ptr ← eat '|' ptr
  match eatWord setAclWord ptr with
  | some arguments => s.doSetAcl (UInt32.ofNat ts) arguments
  | none =>
      match eatWord setRichAclWord ptr with
      | some arguments => s.doSetRichAcl (UInt32.ofNat ts) arguments
      | none => none

end Inodes

/-! ## The text of a line -/

namespace Inodes

variable (s : Inodes)

/-- Without its bracket a command is not accepted. -/
theorem doSetAcl_eq_none (ts : UInt32) {ptr : List Char} (absent : ')' ∉ ptr) (plain : '%' ∉ ptr) :
    s.doSetAcl ts ptr = none := by
  refine Option.eq_none_iff_forall_ne_some.mpr fun result ok => ?_
  simp only [doSetAcl, bind, Option.bind_eq_some_iff] at ok
  obtain ⟨afterOpen, first, afterComma, second, path, third, _, scanned, -⟩ := ok
  have part : path ⊆ ptr := fun c mem => subset_of_eat first (subset_of_scanNumber _
    (subset_of_eat second (tail_subset _ (subset_of_eat third mem))))
  rw [scanPath_eq_none (mt (part ·) absent) (mt (part ·) plain)] at scanned
  cases scanned

theorem doSetRichAcl_eq_none (ts : UInt32) {ptr : List Char} (absent : ')' ∉ ptr)
    (plain : '%' ∉ ptr) : s.doSetRichAcl ts ptr = none := by
  refine Option.eq_none_iff_forall_ne_some.mpr fun result ok => ?_
  simp only [doSetRichAcl, bind, Option.bind_eq_some_iff] at ok
  obtain ⟨afterOpen, first, path, second, _, scanned, -⟩ := ok
  have part : path ⊆ ptr := fun c mem =>
    subset_of_eat first (subset_of_scanNumber _ (subset_of_eat second mem))
  rw [scanPath_eq_none (mt (part ·) absent) (mt (part ·) plain)] at scanned
  cases scanned

/-- The time of a line is read, and then its command. -/
theorem restoreLine_changeLog (ts : UInt32) (entry : List Char) :
    s.restoreLine (changeLog ts entry) =
      match eatWord setAclWord (entry.take (kMaxEntrySize - 1)) with
      | some arguments => s.doSetAcl ts arguments
      | none =>
        match eatWord setRichAclWord (entry.take (kMaxEntrySize - 1)) with
        | some arguments => s.doSetRichAcl ts arguments
        | none => none := by
  have time : scanNumber (changeLog ts entry) =
      (ts.toNat, '|' :: entry.take (kMaxEntrySize - 1)) :=
    scanNumber_number ts.toNat (by simp)
  unfold restoreLine
  simp only [time, eat_cons, bind, Option.bind, UInt32.ofNat_toNat]

/-- The text of a change before its bracket has no other bracket. -/
theorem entry_eq_concat (id : InodeId) (change : AclChange) :
    ∃ front, change.entry id = front ++ [')'] ∧ ')' ∉ front ∧ '%' ∉ front := by
  have digits : ∀ {c : Char}, c = ')' ∨ c = '%' → c ∉ number id := fun other =>
    not_mem_number (by rcases other with rfl | rfl <;> decide)
  cases change with
  | rich acl =>
    refine ⟨setRichAclWord ++ '(' :: (number id ++ ',' :: acl.toString), by simp [AclChange.entry],
      ?_, ?_⟩
    · simp [setRichAclWord, digits (.inl rfl), acl.not_mem_toString (.inl rfl)]
    · simp [setRichAclWord, digits (.inr rfl), acl.not_mem_toString (.inr rfl)]
  | posix type acl =>
    have letter : type.letter ≠ ')' ∧ type.letter ≠ '%' := by
      cases type <;> decide
    refine ⟨setAclWord ++ '(' :: (number id ++ ',' :: type.letter :: ',' :: acl.toString),
      by simp [AclChange.entry], ?_, ?_⟩
    · simp [setAclWord, digits (.inl rfl), acl.not_mem_toString (.inl rfl), letter.1.symm]
    · simp [setAclWord, digits (.inr rfl), acl.not_mem_toString (.inr rfl), letter.2.symm]

/-- A line that lost its end is not accepted. -/
theorem restoreLine_of_long (ts : UInt32) {id : InodeId} {change : AclChange}
    (long : kMaxEntrySize ≤ (change.entry id).length) :
    s.restoreLine (changeLog ts (change.entry id)) = none := by
  obtain ⟨front, entry, absent, plain⟩ := entry_eq_concat id change
  have cut : (change.entry id).take (kMaxEntrySize - 1) ⊆ front := by
    rw [entry, length_append, length_singleton] at long
    rw [entry, take_append_of_le_length (by omega)]
    exact take_subset _ _
  rw [restoreLine_changeLog]
  split
  next arguments eaten =>
    have part := List.Subset.trans (subset_of_eatWord eaten) cut
    exact s.doSetAcl_eq_none ts (fun mem => absent (part mem)) fun mem => plain (part mem)
  · split
    next arguments eaten =>
      have part := List.Subset.trans (subset_of_eatWord eaten) cut
      exact s.doSetRichAcl_eq_none ts (fun mem => absent (part mem))
        fun mem => plain (part mem)
    · rfl

/-- A shorter line has the arguments of its change. -/
theorem restoreLine_rich (ts : UInt32) {id : InodeId} {acl : RichACL}
    (short : ((AclChange.rich acl).entry id).length < kMaxEntrySize) :
    s.restoreLine (changeLog ts ((AclChange.rich acl).entry id)) =
      s.applySetRichAcl ts id acl.toString := by
  rw [restoreLine_changeLog, take_of_length_le (by omega)]
  unfold AclChange.entry
  have other : eatWord setAclWord (setRichAclWord ++ '(' ::
      (number id ++ ',' :: (acl.toString ++ [')']))) = none := by
    simp [setAclWord, setRichAclWord, eatWord, eat]
  have inode : scanNumber (number id ++ ',' :: (acl.toString ++ [')'])) =
      (id, ',' :: (acl.toString ++ [')'])) := scanNumber_number id (by simp)
  have path :=
    scanPath_append (acl.not_mem_toString (.inl rfl)) (acl.not_mem_toString (.inr rfl)) []
  simp only [other, eatWord_append]
  unfold doSetRichAcl
  simp only [eat_cons, bind, Option.bind, inode, path]

theorem restoreLine_posix (ts : UInt32) {id : InodeId} {type : AclType} {acl : AccessControlList}
    (short : ((AclChange.posix type acl).entry id).length < kMaxEntrySize) :
    s.restoreLine (changeLog ts ((AclChange.posix type acl).entry id)) =
      s.applySetAcl ts id (some type.letter) acl.toString := by
  rw [restoreLine_changeLog, take_of_length_le (by omega)]
  unfold AclChange.entry
  have inode : scanNumber (number id ++ ',' :: type.letter :: ',' :: (acl.toString ++ [')'])) =
      (id, ',' :: type.letter :: ',' :: (acl.toString ++ [')'])) := scanNumber_number id (by simp)
  have path :=
    scanPath_append (acl.not_mem_toString (.inl rfl)) (acl.not_mem_toString (.inr rfl)) []
  simp only [eatWord_append]
  unfold doSetAcl
  simp only [eat_cons, bind, Option.bind, inode, path, head?_cons, tail_cons]

end Inodes

/-! ## Rich lists -/

namespace RichACL

/-- The permissions of the lowest three bits of a mode are found again. -/
theorem convertMask2Mode_convertMode2Mask (mode : Mode) (isDir : Bool) :
    convertMask2Mode (convertMode2Mask mode &&& ~~~directoryOnly isDir) = mode &&& 7 := by
  have low : mode &&& 7 = (mode.setWidth 3).setWidth 16 := by
    ext i inside
    interval_cases i <;> simp
  have three : ∀ (bits : BitVec 3) (isDir : Bool), convertMask2Mode
      (convertMode2Mask (bits.setWidth 16) &&& ~~~directoryOnly isDir) = bits.setWidth 16 := by
    decide
  have eq : mode &&& 7 = ((mode.setWidth 3).setWidth 16 : Mode) &&& 7 := by
    rw [← low, BitVec.and_assoc, BitVec.and_self]
  rw [convertMode2Mask_congr eq, three, low]

theorem getMode_setMode (acl : RichACL) (mode : Mode) (isDir : Bool) :
    (acl.setMode mode isDir).getMode = mode &&& 0o777 := by
  unfold getMode setMode
  rw [convertMask2Mode_convertMode2Mask, convertMask2Mode_convertMode2Mask,
    convertMask2Mode_convertMode2Mask]
  ext i inside
  interval_cases i <;> simp

/-- Every flag of a list and every permission of its masks has a letter. -/
structure HasLetters (acl : RichACL) : Prop where
  flags : acl.flags &&& ~~~letterFlags = 0
  owner : acl.ownerMask &&& ~~~kValidMask = 0
  group : acl.groupMask &&& ~~~kValidMask = 0
  other : acl.otherMask &&& ~~~kValidMask = 0

/-- A list that is to follow the mode of a node does so already, and does not stand for a
mode. -/
structure FollowsMode (acl : RichACL) (node : NodeAttributes) : Prop where
  flags : acl.flags &&& ~~~(letterFlags ||| kAutoSetMode) = 0
  masked : (kMasked ||| kWriteThrough) &&& ~~~acl.flags = 0
  owner : acl.ownerMask &&& kValidMask =
    convertMode2Mask (node.mode >>> 6) &&& ~~~directoryOnly node.isDir
  group : acl.groupMask &&& kValidMask =
    convertMode2Mask (node.mode >>> 3) &&& ~~~directoryOnly node.isDir
  other : acl.otherMask &&& kValidMask =
    convertMode2Mask node.mode &&& ~~~directoryOnly node.isDir
  noMode : acl.written.equivMode node.mode node.isDir = none

/-- The text of a list that is stored says all of it. -/
structure SaidByText (acl : RichACL) (node : NodeAttributes) : Prop where
  entries : ∀ ace ∈ acl.aceList, ace.hasLetters = true
  letters : acl.has kAutoSetMode = false → acl.HasLetters
  follows : acl.has kAutoSetMode = true → acl.FollowsMode node

theorem map_written_eq_iff (aces : List Ace) :
    aces.map Ace.written = aces ↔ ∀ ace ∈ aces, ace.hasLetters = true := by
  have pointwise : aces.map Ace.written = aces.map id ↔ ∀ ace ∈ aces, ace.written = ace :=
    map_inj_left
  rw [map_id] at pointwise
  rw [pointwise]
  exact forall₂_congr fun ace _ => ace.written_eq_iff

/-- A list is what is read from its text. -/
theorem written_eq_iff (acl : RichACL) : acl.written = acl ↔
    (∀ ace ∈ acl.aceList, ace.hasLetters = true) ∧ acl.HasLetters := by
  rw [← map_written_eq_iff]
  have fields : acl.written = acl ↔ acl.ownerMask &&& kValidMask = acl.ownerMask ∧
      acl.groupMask &&& kValidMask = acl.groupMask ∧ acl.otherMask &&& kValidMask = acl.otherMask ∧
      acl.flags &&& letterFlags = acl.flags ∧ acl.aceList.map Ace.written = acl.aceList := by
    unfold written
    rw [RichACL.mk.injEq]
  rw [fields, WordBits.and_eq_self_iff, WordBits.and_eq_self_iff, WordBits.and_eq_self_iff,
    WordBits.and_eq_self_iff]
  constructor
  · rintro ⟨owner, group, other, flags, entries⟩
    exact ⟨entries, flags, owner, group, other⟩
  · rintro ⟨entries, flags, owner, group, other⟩
    exact ⟨owner, group, other, flags, entries⟩

/-- A list as it is stored on a node. -/
def stored (acl : RichACL) (node : NodeAttributes) : RichACL :=
  if acl.has kAutoSetMode then
    { acl with flags := acl.flags &&& ~~~kAutoSetMode }.setMode node.mode node.isDir
  else acl

/-- The flags of a list that follows the mode, compared with those of its text. -/
theorem flags_follow_iff (flags : BitVec 16) :
    flags &&& letterFlags = flags &&& ~~~kAutoSetMode ||| (kMasked ||| kWriteThrough) ↔
      flags &&& ~~~(letterFlags ||| kAutoSetMode) = 0 ∧
        (kMasked ||| kWriteThrough) &&& ~~~flags = 0 := by
  have eq : (kMasked ||| kWriteThrough) &&& ~~~letterFlags = 0 := by decide
  have apart : kAutoSetMode &&& letterFlags = 0 := by decide
  generalize letterFlags = letters at eq apart ⊢
  generalize kAutoSetMode = auto at apart ⊢
  generalize kMasked ||| kWriteThrough = masked at eq ⊢
  simp only [BitVec.eq_of_getLsbD_eq_iff] at eq apart ⊢
  rw [← forall₂_and]
  refine forall₂_congr fun i bound => ?_
  have insideHere := eq i bound
  have apartHere := apart i bound
  simp only [BitVec.getLsbD_and, BitVec.getLsbD_or, BitVec.getLsbD_not, bound,
    BitVec.ofNat_eq_ofNat, BitVec.getLsbD_zero] at insideHere apartHere ⊢
  revert insideHere apartHere
  cases flags.getLsbD i <;> cases letters.getLsbD i <;> cases auto.getLsbD i <;>
    cases masked.getLsbD i <;> decide

/-- What the text of a list says is what is stored, and does not stand for a mode. -/
theorem saidByText_iff {acl : RichACL} {node : NodeAttributes}
    (noMode : acl.equivMode node.mode node.isDir = none) :
    acl.written = acl.stored node ∧ acl.written.equivMode node.mode node.isDir = none ↔
      acl.SaidByText node := by
  unfold stored
  cases auto : acl.has kAutoSetMode with
  | false =>
    rw [if_neg (by decide), written_eq_iff]
    constructor
    · rintro ⟨⟨entries, letters⟩, _⟩
      exact ⟨entries, fun _ => letters, fun isAuto => by rw [auto] at isAuto; cases isAuto⟩
    · intro said
      have eq := acl.written_eq_iff.mpr ⟨said.entries, said.letters auto⟩
      exact ⟨⟨said.entries, said.letters auto⟩, by rw [eq, noMode]⟩
  | true =>
    rw [if_pos rfl]
    unfold written setMode
    rw [RichACL.mk.injEq, flags_follow_iff, map_written_eq_iff]
    constructor
    · rintro ⟨⟨owner, group, other, ⟨flags, masked⟩, entries⟩, standsForNone⟩
      exact ⟨entries, fun noAuto => by (rw [auto] at noAuto; cases noAuto),
        fun _ => ⟨flags, masked, owner, group, other, standsForNone⟩⟩
    · intro said
      obtain ⟨flags, masked, owner, group, other, standsForNone⟩ := said.follows auto
      exact ⟨⟨owner, group, other, ⟨flags, masked⟩, said.entries⟩, standsForNone⟩

end RichACL

namespace Inodes

/-- Two sides have the same list and the same mode for a node. -/
def Agree (s t : Inodes) (id : InodeId) : Prop :=
  s.acl id = t.acl id ∧ (s.node id).map (·.mode) = (t.node id).map (·.mode)

@[simp] theorem acl_setNode_setAcl (s : Inodes) (id : InodeId) (acl : Option RichACL)
    (node : NodeAttributes) : ((s.setAcl id acl).setNode id node).acl id = acl := by
  simp [setNode, setAcl]

@[simp] theorem node_setNode (s : Inodes) (id : InodeId) (node : NodeAttributes) :
    (s.setNode id node).node id = some node := by
  simp [setNode]

/-- A mode with its own permissions. -/
theorem mode_withPermissions (node : NodeAttributes) (ts : UInt32) :
    (node.withPermissions (node.mode &&& 0o777) ts).mode = node.mode := by
  unfold NodeAttributes.withPermissions kStandardPermissionsMask
  ext i inside
  interval_cases i <;> simp

/-- What is stored of a list that does not stand for a mode. -/
theorem setRichAcl_of_none {s s' : Inodes} {id : InodeId} {node : NodeAttributes} {acl : RichACL}
    {ts : UInt32} (noMode : acl.equivMode node.mode node.isDir = none)
    (ok : s.setRichAcl id node acl ts = .ok s') :
    s'.acl id = some (acl.stored node) ∧ (s'.node id).map (·.mode) =
      some (if acl.has RichACL.kAutoSetMode then node.mode
        else (node.withPermissions acl.getMode ts).mode) := by
  unfold setRichAcl at ok
  rw [noMode] at ok
  unfold RichACL.stored
  split at ok
  · cases ok
  dsimp only at ok
  split at ok
  next auto =>
    cases ok
    rw [if_pos auto, if_pos auto]
    simp
  next noAuto =>
    cases ok
    rw [if_neg noAuto, if_neg noAuto]
    simp

/-- The list that is read from the text does to a node what the list itself did, if it stands
for a mode or its text says all of it. -/
theorem setRichAcl_written_iff {s s' : Inodes} {id : InodeId} {node : NodeAttributes}
    {acl : RichACL} {ts : UInt32} (ok : s.setRichAcl id node acl ts = .ok s') :
    (∃ shadow, s.setRichAcl id node acl.written ts = .ok shadow ∧ shadow.Agree s' id) ↔
      (acl.equivMode node.mode node.isDir = none → acl.SaidByText node) := by
  have inherit : acl.checkInheritFlags node.isDir = true := by
    by_contra refused
    unfold setRichAcl at ok
    rw [if_pos refused] at ok
    cases ok
  have inheritWritten : ¬ ¬ acl.written.checkInheritFlags node.isDir = true := by
    rw [RichACL.checkInheritFlags_written, inherit]
    decide
  cases stands : acl.equivMode node.mode node.isDir with
  | some mode =>
    have eq : s.setRichAcl id node acl.written ts = .ok s' := by
      rw [← ok]
      unfold setRichAcl
      rw [stands, RichACL.equivMode_written stands, RichACL.checkInheritFlags_written]
    constructor
    · intro _ noMode
      cases noMode
    · exact fun _ => ⟨s', eq, rfl, rfl⟩
  | none =>
    obtain ⟨storedAcl, storedMode⟩ := setRichAcl_of_none stands ok
    rw [← RichACL.saidByText_iff stands]
    constructor
    · rintro ⟨shadow, replayed, sameAcl, _⟩ -
      cases standsWritten : acl.written.equivMode node.mode node.isDir with
      | some mode =>
        unfold setRichAcl at replayed
        rw [if_neg inheritWritten, standsWritten] at replayed
        cases replayed
        rw [storedAcl, acl_setNode_setAcl] at sameAcl
        cases sameAcl
      | none =>
        have written := (setRichAcl_of_none standsWritten replayed).1
        unfold RichACL.stored at written
        rw [acl.has_kAutoSetMode_written] at written
        rw [written, storedAcl] at sameAcl
        exact ⟨Option.some.inj sameAcl, rfl⟩
    · intro said
      obtain ⟨eq, standsWritten⟩ := said rfl
      obtain ⟨shadow, replayed⟩ : ∃ shadow, s.setRichAcl id node acl.written ts = .ok shadow := by
        unfold setRichAcl
        rw [if_neg inheritWritten, standsWritten, acl.has_kAutoSetMode_written]
        exact ⟨_, rfl⟩
      obtain ⟨shadowAcl, shadowMode⟩ := setRichAcl_of_none standsWritten replayed
      refine ⟨shadow, replayed, ?_, ?_⟩
      · unfold RichACL.stored at shadowAcl
        rw [acl.has_kAutoSetMode_written, if_neg (by decide)] at shadowAcl
        rw [shadowAcl, storedAcl, eq]
      · rw [shadowMode, storedMode, acl.has_kAutoSetMode_written, if_neg (by decide), eq]
        unfold RichACL.stored
        split
        · rw [RichACL.getMode_setMode, mode_withPermissions]
        · rfl

end Inodes

/-! ## POSIX lists -/

/-- A POSIX list is read from its text as it is: its named entries stand in their order, and it
has no entries that are not written where they make it more than a mode. -/
structure AccessControlList.Replayable (acl : AccessControlList) : Prop extends acl.Readable where
  ordered : acl.namedEntries.Pairwise fun entry later => entry.key < later.key
  onlyNamed : acl.namedEntries = [] → acl.maskRights = kMaskUnset → acl.list = []

namespace RichACL

/-- The denying entries and the one of everyone come after those of users and groups. -/
theorem map_identity_appendPosixACL {acl : RichACL} {posix : AccessControlList} (isDir : Bool)
    (once : posix.NamedOnce) (extended : posix.minimalAcl = false)
    (noAccess : ∀ ace ∈ acl.aceList, ace.isInheritOnly = true) :
    ∃ rest, (acl.appendPosixACL posix isDir).aceList.map Ace.identity =
      acl.aceList.map Ace.identity ++ ([(Ace.kSpecialWho, Ace.kOwnerSpecialId),
        (Ace.kSpecialWho, Ace.kGroupSpecialId)] ++
        (posix.namedEntries.map fun entry => (namedAce isDir entry).identity) ++ rest) := by
  refine ⟨(denyAces posix isDir ++ [everyoneAce posix isDir]).map Ace.identity, ?_⟩
  rw [aceList_appendPosixACL isDir once extended noAccess]
  unfold shaped classAces namedAces ownerAce groupAce
  simp [identity_special, AccessControlList.namedEntries]

/-- The place of an entry, from whom it names. -/
def placeOf (who : BitVec 9 × UInt32) : Nat :=
  Entry.place (if who.1 = 0 then kNamedUser else kNamedGroup) who.2

theorem placeOf_identity {isDir : Bool} {entry : Entry} (named : entry.isNamed = true) :
    placeOf (namedAce isDir entry).identity = entry.key := by
  unfold placeOf Entry.key
  rw [identity_namedAce]
  unfold Entry.isNamed at named
  simp only [Bool.or_eq_true, decide_eq_true_eq] at named
  rcases named with user | group
  · rw [user]
    rfl
  · rw [group]
    rfl

/-- Entries with the same identifiers have the same places. -/
theorem map_key_eq {isDir : Bool} {entries others : List Entry}
    (named : ∀ entry ∈ entries, entry.isNamed = true)
    (namedOthers : ∀ entry ∈ others, entry.isNamed = true)
    (eq : entries.map (fun entry => (namedAce isDir entry).identity) =
      others.map fun entry => (namedAce isDir entry).identity) :
    entries.map Entry.key = others.map Entry.key := by
  have places : ∀ {list : List Entry}, (∀ entry ∈ list, entry.isNamed = true) →
      (list.map fun entry => (namedAce isDir entry).identity).map placeOf = list.map Entry.key := by
    intro list all
    rw [map_map]
    exact map_congr_left fun entry mem => placeOf_identity (all entry mem)
  rw [← places named, ← places namedOthers, eq]

variable {posix : AccessControlList} {list : List Entry}

theorem namedEntries_of_perm (perm : list.Perm posix.namedEntries) :
    AccessControlList.namedEntries { posix with list := list } = list :=
  filter_eq_self.mpr fun _ mem =>
    AccessControlList.isNamed_of_mem_namedEntries (perm.mem_iff.mp mem)

/-- The entries that a list is made of show whether it was in order. -/
theorem ordered_of_same_identities {acl : RichACL} {isDir : Bool}
    (noAccess : ∀ ace ∈ acl.aceList, ace.isInheritOnly = true) (once : posix.NamedOnce)
    (perm : list.Perm posix.namedEntries)
    (lt : list.Pairwise fun entry later => entry.key < later.key)
    (eq : (acl.appendPosixACL { posix with list := list } isDir).aceList.map Ace.identity =
      (acl.appendPosixACL posix isDir).aceList.map Ace.identity) :
    (posix.namedEntries.Pairwise fun entry later => entry.key < later.key) ∧
      (posix.namedEntries = [] → posix.maskRights = kMaskUnset → posix.list = []) := by
  have onceRead : AccessControlList.NamedOnce { posix with list := list } :=
    AccessControlList.Sorted.namedOnce lt
  cases minimal : posix.minimalAcl with
  | true =>
    unfold minimalAcl at minimal
    simp only [Bool.and_eq_true, List.isEmpty_iff] at minimal
    refine ⟨?_, fun _ _ => minimal.2⟩
    unfold AccessControlList.namedEntries
    rw [minimal.2]
    exact List.Pairwise.nil
  | false =>
    obtain ⟨rest, shape⟩ := map_identity_appendPosixACL isDir once minimal noAccess
    cases minimalRead : minimalAcl { posix with list := list } with
    | true =>
      -- the list from the text adds no entries, the other one does
      rw [shape, (appendPosixACL_minimal acl minimalRead).1] at eq
      have lengths := congrArg length eq
      simp at lengths
    | false =>
      obtain ⟨restRead, shapeRead⟩ :=
        map_identity_appendPosixACL isDir onceRead minimalRead noAccess
      rw [shape, shapeRead, namedEntries_of_perm perm, append_cancel_left_eq] at eq
      have front := (append_inj eq (by simp [perm.length_eq])).1
      rw [append_cancel_left_eq] at front
      have keys := map_key_eq (fun entry mem => AccessControlList.isNamed_of_mem_namedEntries
        (perm.mem_iff.mp mem)) (fun entry => AccessControlList.isNamed_of_mem_namedEntries) front
      refine ⟨?_, ?_⟩
      · rw [← pairwise_map, ← keys, pairwise_map]
        exact lt
      · intro noNamed unset
        rw [noNamed, perm_nil] at perm
        simp [minimalAcl, perm, unset] at minimalRead

/-- A list that is read as it was makes the same entries. -/
theorem appendPosixACL_read (acl : RichACL) (isDir : Bool) (eq : list = posix.namedEntries)
    (onlyNamed : posix.namedEntries = [] → posix.maskRights = kMaskUnset → posix.list = []) :
    acl.appendPosixACL { posix with list := list } isDir = acl.appendPosixACL posix isDir := by
  have aces : posixAces { posix with list := list } isDir = posixAces posix isDir := by
    have named : AccessControlList.namedEntries { posix with list := list } = list :=
      namedEntries_of_perm (List.Perm.of_eq eq)
    unfold posixAces
    rw [show list.filter (·.isNamed) = posix.list.filter (·.isNamed) from named.trans eq]
  have minimal : minimalAcl { posix with list := list } = posix.minimalAcl := by
    unfold minimalAcl
    rw [eq]
    by_cases unset : posix.maskRights = kMaskUnset
    · by_cases noNamed : posix.namedEntries = []
      · rw [noNamed, onlyNamed noNamed unset]
      · have some : posix.list ≠ [] := by
          intro none
          apply noNamed
          unfold AccessControlList.namedEntries
          rw [none]
          rfl
        rw [isEmpty_eq_false_iff.mpr noNamed, isEmpty_eq_false_iff.mpr some]
    · simp [unset]
  unfold appendPosixACL
  rw [aces, minimal]

theorem identity_defaultFlags (ace : Ace) :
    Ace.identity { ace with flags := ace.flags ||| defaultFlags } = ace.identity := by
  unfold Ace.identity
  rw [BitVec.and_or_distrib_right,
    show defaultFlags &&& (Ace.kSpecialWho ||| Ace.kIdentifierGroup) = 0
    from by decide]
  simp

end RichACL

namespace Inodes

variable {s s' : Inodes} {id : InodeId} {node : NodeAttributes} {type : AclType}
  {acl : AccessControlList} {list : List Entry} {ts : UInt32}

/-- The entries that a POSIX list of some kind puts on a node, and whether they are kept apart
from others. -/
theorem setPosixAcl_cases (ok : s.setPosixAcl type id node acl ts = .ok s') :
    (type = .default ∧ node.isDir = true ∧
      s' = (s.setAcl id (some (((s.keptAcl .default id).appendDefaultPosixACL acl).setMode node.mode
        true))).setNode id { node with ctime := ts }) ∨ (type = .access ∧
      s' = (s.setAcl id (some ((s.keptAcl .access id).appendPosixACL acl node.isDir))).setNode id
        (node.withPermissions
          ((s.keptAcl .access id).appendPosixACL acl node.isDir).getMode ts)) := by
  unfold setPosixAcl at ok
  cases type with
  | richAcl => cases ok
  | default =>
    dsimp only at ok
    split at ok
    · cases ok
    next isDir =>
      cases ok
      exact .inl ⟨rfl, not_not.mp isDir, rfl⟩
  | access =>
    cases ok
    exact .inr ⟨rfl, rfl⟩

/-- A POSIX list that is read with its entries in order does what the list itself did only if
that list was in order, and was not more than a mode by entries that are not written. -/
theorem setPosixAcl_read_iff (ok : s.setPosixAcl type id node acl ts = .ok s')
    (once : acl.NamedOnce) (perm : list.Perm acl.namedEntries)
    (lt : list.Pairwise fun entry later => entry.key < later.key) :
    (∃ shadow, s.setPosixAcl type id node { acl with list := list } ts = .ok shadow ∧
        shadow.Agree s' id) ↔ (acl.namedEntries.Pairwise fun entry later => entry.key < later.key) ∧
        (acl.namedEntries = [] → acl.maskRights = kMaskUnset → acl.list = []) := by
  constructor
  · rintro ⟨shadow, replayed, sameAcl, _⟩
    rcases setPosixAcl_cases ok with ⟨rfl, _, rfl⟩ | ⟨rfl, rfl⟩
    · obtain ⟨_, _, rfl⟩ | ⟨impossible, _⟩ := setPosixAcl_cases replayed
      · rw [acl_setNode_setAcl, acl_setNode_setAcl] at sameAcl
        have aces := congrArg RichACL.aceList (Option.some.inj sameAcl)
        unfold RichACL.setMode RichACL.appendDefaultPosixACL at aces
        rw [append_cancel_left_eq] at aces
        have identities := congrArg (List.map Ace.identity) aces
        rw [map_map, map_map] at identities
        simp only [Function.comp_def, RichACL.identity_defaultFlags] at identities
        exact RichACL.ordered_of_same_identities (by simp [RichACL.empty]) once perm lt identities
      · cases impossible
    · obtain ⟨impossible, _⟩ | ⟨_, rfl⟩ := setPosixAcl_cases replayed
      · cases impossible
      · rw [acl_setNode_setAcl, acl_setNode_setAcl] at sameAcl
        have aces := congrArg RichACL.aceList (Option.some.inj sameAcl)
        exact RichACL.ordered_of_same_identities (s.noAccess_keptAcl id) once perm
          lt (congrArg (List.map Ace.identity) aces)
  · rintro ⟨inOrder, onlyNamed⟩
    have eq : list = acl.namedEntries := by
      refine List.Perm.eq_of_pairwise ?_ lt inOrder perm
      omega
    refine ⟨s', ?_, rfl, rfl⟩
    rw [← ok]
    unfold setPosixAcl RichACL.appendDefaultPosixACL
    simp only [RichACL.appendPosixACL_read _ _ eq onlyNamed]

end Inodes

/-! ## Lines that are replayed -/

/-- The line of a change does to a shadow what the change did to the master: it fits into the
buffer, and its list survives its text. -/
def AclChange.Replayable (change : AclChange) (id : InodeId) (node : NodeAttributes) : Prop :=
  (change.entry id).length < kMaxEntrySize ∧
    match change with
    | .rich acl =>
        (∀ ace ∈ acl.aceList, ace.isReadable = true) ∧
          (acl.equivMode node.mode node.isDir = none → acl.SaidByText node)
    | .posix _ acl => acl.Replayable

namespace Inodes

variable {s s' : Inodes} {context : Context} {inode id : InodeId} {node : NodeAttributes}
  {change : AclChange} {line : List Char} {ts : UInt32}

/-- What an accepted call does. -/
theorem changeAcl_eq_ok (found : context.getNode inode = .ok id) (eq : s.node id = some node)
    (ok : s.changeAcl context inode change = .ok (s', line)) :
    line = changeLog context.ts (change.entry id) ∧
      match change with
      | .rich acl => s.setRichAcl id node acl context.ts = .ok s'
      | .posix type acl => s.setPosixAcl type id node acl context.ts = .ok s' := by
  unfold changeAcl at ok
  rw [found] at ok
  simp only [bind, Except.bind, eq] at ok
  cases change with
  | rich acl =>
    dsimp only at ok ⊢
    split at ok
    · cases ok
    next made =>
      cases ok
      exact ⟨rfl, made⟩
  | posix type acl =>
    dsimp only at ok ⊢
    split at ok
    · cases ok
    next made =>
      cases ok
      exact ⟨rfl, made⟩

theorem toOption_eq_some_iff {result : Except Refusal Inodes} {shadow : Inodes} :
    result.toOption = some shadow ↔ result = .ok shadow := by
  cases result with
  | error refusal => simp [Except.toOption]
  | ok value => simp [Except.toOption]

theorem rich_replay_iff {acl : RichACL} (eq : s.node id = some node)
    (ok : s.setRichAcl id node acl ts = .ok s') :
    (∃ shadow, s.restoreLine (changeLog ts ((AclChange.rich acl).entry id)) = some shadow ∧
        shadow.Agree s' id) ↔ (AclChange.rich acl).Replayable id node := by
  unfold AclChange.Replayable
  rcases Nat.lt_or_ge ((AclChange.rich acl).entry id).length kMaxEntrySize with short | long
  · rw [restoreLine_rich s ts short]
    unfold applySetRichAcl
    rw [RichACL.fromString_toString]
    by_cases readable : acl.aceList.all (·.isReadable) = true
    · rw [if_pos readable]
      simp only [bind, Option.bind, eq, toOption_eq_some_iff]
      rw [setRichAcl_written_iff ok]
      rw [all_eq_true] at readable
      exact ⟨fun said => ⟨short, readable, said⟩, fun replayable => replayable.2.2⟩
    · rw [all_eq_true] at readable
      simp [readable]
  · simp [restoreLine_of_long s ts long, Nat.not_lt.mpr long]

theorem posix_replay_iff {type : AclType} {acl : AccessControlList} (eq : s.node id = some node)
    (ok : s.setPosixAcl type id node acl ts = .ok s') :
    (∃ shadow, s.restoreLine (changeLog ts ((AclChange.posix type acl).entry id)) = some shadow ∧
        shadow.Agree s' id) ↔ (AclChange.posix type acl).Replayable id node := by
  unfold AclChange.Replayable
  rcases Nat.lt_or_ge ((AclChange.posix type acl).entry id).length kMaxEntrySize with short | long
  · have le : acl.namedEntries.length ≤ maxSize := by
      have entries := acl.length_namedEntries_le
      have text : acl.toString.length ≤ ((AclChange.posix type acl).entry id).length := by
        simp only [AclChange.entry, length_append, length_cons]
        omega
      unfold kMaxEntrySize at short
      unfold maxSize
      omega
    have letter : AclType.ofLetter (some type.letter) = some type := by
      rcases setPosixAcl_cases ok with ⟨rfl, _⟩ | ⟨rfl, _⟩
      · rfl
      · rfl
    rw [restoreLine_posix s ts short]
    unfold applySetAcl
    cases result : fromString acl.toString with
    | none =>
      have unreadable : ¬ acl.Replayable := by
        intro replayable
        obtain ⟨read, some⟩ := exists_fromString le replayable.toReadable
        rw [result] at some
        cases some
      simp [unreadable]
    | some read =>
      obtain ⟨readable, list, rfl, perm, ordered⟩ := fromString_toString le result
      simp only [bind, Option.bind, eq, letter, toOption_eq_some_iff]
      rw [setPosixAcl_read_iff ok readable.once perm ordered]
      constructor
      · rintro ⟨inOrder, onlyNamed⟩
        exact ⟨short, readable, inOrder, onlyNamed⟩
      · rintro ⟨_, _, inOrder, onlyNamed⟩
        exact ⟨inOrder, onlyNamed⟩
  · simp [restoreLine_of_long s ts long, Nat.not_lt.mpr long]

/-- A line of the log leaves a shadow with the list and the mode of the master exactly if the
list survives its text. -/
theorem acl_replay_iff (found : context.getNode inode = .ok id) (known : s.node id = some node)
    (accepted : s.changeAcl context inode change = .ok (s', line)) :
    (∃ shadow, s.restoreLine line = some shadow ∧ shadow.Agree s' id) ↔
      change.Replayable id node := by
  obtain ⟨rfl, made⟩ := changeAcl_eq_ok found known accepted
  cases change with
  | rich acl => exact rich_replay_iff known made
  | posix type acl => exact posix_replay_iff known made

/-- Two users who may read a file, with the mask that they may. -/
def twoReaders : AccessControlList :=
  ⟨[⟨2000, kNamedUser, 4⟩, ⟨2001, kNamedUser, 4⟩], 6, 4, 0, 4⟩

/-- An access list with two named users is replayed as it was set. -/
theorem acl_replay_iff_twoReaders :
    ∃ s' line, sharedFile.changeAcl fileOwner 5 (.posix .access twoReaders) = .ok (s', line) ∧
      ∃ shadow, sharedFile.restoreLine line = some shadow ∧ shadow.Agree s' 5 := by
  refine ⟨_, _, rfl, ?_⟩
  refine (@acl_replay_iff sharedFile _ fileOwner 5 5 _
    (.posix .access twoReaders) _ rfl rfl rfl).mpr ?_
  refine ⟨by decide, ⟨by decide, by decide, by decide, by decide, by decide, ?_⟩, ?_, by decide⟩
  · unfold AccessControlList.NamedOnce
    decide
  · decide

/-- A list for user 2000 that is to follow the mode of its node. -/
def followingList : RichACL :=
  ⟨0, 0, 0, RichACL.kAutoSetMode, [Ace.make Ace.kAccessAllowedAceType 0 kReadData 2000]⟩

/-- A list that is to follow the mode leaves the mode of the master as it is, and takes all
permissions out of the mode of the shadow: there is no letter for the flag. -/
theorem following_list_takes_mode_on_shadow :
    ∃ s' line, sharedFile.changeAcl fileOwner 5 (.rich followingList) = .ok (s', line) ∧
      (s'.node 5).map (·.mode) = some 0o600 ∧
      ¬ ∃ shadow, sharedFile.restoreLine line = some shadow ∧ shadow.Agree s' 5 := by
  refine ⟨_, _, rfl, by decide, ?_⟩
  rintro ⟨shadow, replayed, _, sameMode⟩
  have mode := congrArg (Option.bind · fun shadow => (shadow.node 5).map (·.mode)) replayed
  rw [Option.bind_some, sameMode] at mode
  exact absurd mode (by decide)

end Inodes

end LeilFS.Acl
