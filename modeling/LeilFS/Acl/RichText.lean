/-
Module: LeilFS.Acl.RichText
Purpose: Rich access control lists as text in the log, and what is left of a list that is
  read from its own text.
Trusted boundary: none
-/
import LeilFS.Acl.RichAcl
import LeilFS.Lib.LogText
import LeilFS.Lib.WordBits

namespace LeilFS.Acl

open List Mask LogText

/-! ## Letters -/

/-- [SPEC richacl_string.cc:59-65] -/
def kAclFlagBits : List (BitVec 16 × Char) :=
  [(RichACL.kMasked, 'm'), (RichACL.kWriteThrough, 'w'), (RichACL.kAutoInherit, 'a'),
    (RichACL.kProtected, 'p'), (RichACL.kDefaulted, 'd')]

/-- [SPEC richacl_string.cc:72-79] -/
def kAceFlagBits : List (BitVec 9 × Char) :=
  [(Ace.kFileInheritAce, 'f'), (Ace.kDirectoryInheritAce, 'd'), (Ace.kNoPropagateInheritAce, 'n'),
    (Ace.kInheritOnlyAce, 'i'), (Ace.kInheritedAce, 'a'), (Ace.kSpecialWho, 'S')]

/-- [SPEC richacl_string.cc:91-113] The first three permissions have a second name for
directories. -/
def kMaskFlags : List (Mask × Char) :=
  [(kReadData, 'r'), (kReadData, 'r'), (kWriteData, 'w'), (kWriteData, 'w'), (kAppendData, 'p'),
    (kAppendData, 'p'), (kExecute, 'x'), (kDeleteChild, 'd'), (kDelete, 'D'),
    (kReadAttributes, 'a'), (kWriteAttributes, 'A'), (kReadNamedAttrs, 'R'),
    (kWriteNamedAttrs, 'W'), (kReadAcl, 'c'), (kWriteAcl, 'C'), (kWriteOwner, 'o'),
    (kSynchronize, 'S'), (kWriteRetention, 'e'), (kWriteRetentionHold, 'E')]

theorem alphabet_acl : Alphabet kAclFlagBits where
  single := by decide
  letters := by decide

theorem alphabet_ace : Alphabet kAceFlagBits where
  single := by decide
  letters := by decide

theorem alphabet_mask : Alphabet kMaskFlags where
  single := by decide
  letters := by decide

/-- The permissions with a letter. -/
def kValidMask : Mask := 0x1F07FF

/-! ## Entries -/

namespace Ace

/-- The flags that say whom an entry names. -/
def identifierFlags : BitVec 9 := kIdentifierGroup ||| kSpecialWho

/-- The other flags that have a letter. -/
def letterFlags : BitVec 9 :=
  kFileInheritAce ||| kDirectoryInheritAce ||| kNoPropagateInheritAce ||| kInheritOnlyAce |||
    kInheritedAce

/-- [SPEC richacl_string.cc:134-148] A type without a name is written as the character of
its number. -/
def writeType (type : BitVec 2) : List Char :=
  if type = kAccessAllowedAceType then ['A']
  else if type = kAccessDeniedAceType then ['D']
  else [Char.ofNat type.toNat]

/-- [SPEC richacl_string.cc:174-194] -/
def writeIdentifier (ace : Ace) : List Char :=
  if ace.has kSpecialWho then
    if ace.id = kOwnerSpecialId then ['O']
    else if ace.id = kGroupSpecialId then ['G']
    else if ace.id = kEveryoneSpecialId then ['E']
    else []
  else if ace.has kIdentifierGroup then 'g' :: number ace.id.toNat
  else 'u' :: number ace.id.toNat

/-- [SPEC richacl_string.cc:196-203] -/
def toString (ace : Ace) : List Char :=
  writeFlags kMaskFlags ace.bits ++ ':' ::
    (writeFlags kAceFlagBits (ace.flags &&& ~~~identifierFlags) ++ ':' ::
      (writeType ace.type ++ ':' :: (ace.writeIdentifier ++ ['/'])))

/-- [SPEC richacl_string.cc:336-344] -/
def readType : List Char → Option (BitVec 2)
  | 'A' :: _ => some kAccessAllowedAceType
  | 'D' :: _ => some kAccessDeniedAceType
  | _ => none

/-- A user or a group id; what is no number becomes the largest id
[SPEC richacl_string.cc:257-262]. -/
def readId (text : List Char) : UInt32 :=
  let (id, rest) := scanNumber text
  if rest = text ∨ 2 ^ 64 ≤ id then 0xFFFFFFFF else UInt32.ofNat id

/-- The flags and the id of an identifier [SPEC richacl_string.cc:246-280]. -/
def readIdentifier : List Char → Option (BitVec 9 × UInt32)
  | 'O' :: _ => some (kSpecialWho, kOwnerSpecialId)
  | 'G' :: _ => some (kSpecialWho, kGroupSpecialId)
  | 'E' :: _ => some (kSpecialWho, kEveryoneSpecialId)
  | 'u' :: id => some (0, readId id)
  | 'g' :: id => some (kIdentifierGroup, readId id)
  | _ => none

/-- One entry, and the text behind it [SPEC richacl_string.cc:380-401]. -/
def read (text : List Char) : Option (Ace × List Char) := do
  let (field, text) ← upTo ':' text
  let mask ← readFlags kMaskFlags field
  let (field, text) ← upTo ':' text
  let flags ← readFlags kAceFlagBits field
  let (field, text) ← upTo ':' text
  let type ← readType field
  let (field, text) ← upTo '/' text
  let (who, id) ← readIdentifier field
  return (make type (flags ||| who) mask id, text)

/-! ### What the text of an entry says -/

/-- The text of an entry can be read: it allows or denies, and it names somebody. -/
def isReadable (ace : Ace) : Bool :=
  (ace.isAllow || ace.isDeny) &&
    (!ace.has kSpecialWho || ace.isOwner || ace.isGroup || ace.isEveryone)

/-- The flags of whom an entry names: the group flag says nothing of an owner, an owning group or
everyone. -/
def whoFlags (ace : Ace) : BitVec 9 :=
  if ace.has kSpecialWho then kSpecialWho
  else if ace.has kIdentifierGroup then kIdentifierGroup
  else 0

/-- An entry with only what has a letter. -/
def written (ace : Ace) : Ace :=
  make ace.type ((ace.flags &&& letterFlags) ||| ace.whoFlags) (ace.bits &&& kValidMask) ace.id

theorem not_mem_writeType (ace : Ace) {c : Char}
    (other : c ∉ ['A', 'D', Char.ofNat 2, Char.ofNat 3]) : c ∉ writeType ace.type := by
  generalize ace.type = type
  have letters : ∀ type : BitVec 2, writeType type ⊆ ['A', 'D', Char.ofNat 2, Char.ofNat 3] := by
    decide
  exact fun mem => other (letters type mem)

theorem not_mem_writeIdentifier (ace : Ace) {c : Char} (other : c ∉ ['O', 'G', 'E', 'g', 'u'])
    (noDigit : c.isDigit = false) : c ∉ ace.writeIdentifier := by
  simp only [mem_cons, not_or] at other
  unfold writeIdentifier
  repeat' split
  all_goals simp [*, not_mem_number noDigit]

theorem not_mem_letters {w : Nat} {table : List (BitVec w × Char)} {flags : BitVec w} {c : Char}
    (other : c ∉ table.map (·.2)) : c ∉ writeFlags table flags := by
  intro mem
  obtain ⟨row, inside, eq⟩ := mem_of_mem_writeFlags mem
  exact other (mem_map.mpr ⟨row, inside, eq⟩)

theorem readType_writeType (ace : Ace) :
    readType (writeType ace.type) = if ace.isAllow || ace.isDeny then some ace.type else none := by
  unfold isAllow isDeny
  generalize ace.type = type
  revert type
  decide

theorem readId_number (id : UInt32) : readId (number id.toNat) = id := by
  have read : scanNumber (number id.toNat) = (id.toNat, []) := by
    have read := @scanNumber_number id.toNat [] (by simp)
    rwa [append_nil] at read
  have lt : id.toNat < 2 ^ 32 := id.toNat_lt
  unfold readId
  rw [read]
  dsimp only
  rw [if_neg (by
    rintro (none | large)
    · exact number_ne_nil _ none.symm
    · omega), UInt32.ofNat_toNat]

/-- An identifier is read as it is written, but for special ones that have no letter. -/
theorem readIdentifier_writeIdentifier (ace : Ace) : readIdentifier ace.writeIdentifier =
      if !ace.has kSpecialWho || ace.isOwner || ace.isGroup || ace.isEveryone then
        some (ace.whoFlags, ace.id) else none := by
  unfold writeIdentifier whoFlags isOwner isGroup isEveryone
  cases ace.has kSpecialWho with
  | true =>
    simp only [Bool.or_eq_true]
    by_cases owner : ace.id = kOwnerSpecialId
    · rw [owner]
      rfl
    by_cases group : ace.id = kGroupSpecialId
    · rw [group]
      rfl
    · by_cases everyone : ace.id = kEveryoneSpecialId
      · rw [everyone]
        rfl
      · simp [owner, group, everyone, readIdentifier]
  | false =>
    cases ace.has kIdentifierGroup with
    | true => simp [readIdentifier, readId_number]
    | false => simp [readIdentifier, readId_number]

theorem readFlags_letters (ace : Ace) :
    readFlags kAceFlagBits (writeFlags kAceFlagBits (ace.flags &&& ~~~identifierFlags)) =
      some (ace.flags &&& letterFlags) := by
  rw [readFlags_writeFlags alphabet_ace, BitVec.and_assoc,
    show ~~~identifierFlags &&& allFlags kAceFlagBits = letterFlags from by decide]

/-- An entry is read up to its end. -/
theorem read_toString (ace : Ace) (rest : List Char) :
    read (ace.toString ++ rest) = if ace.isReadable then some (ace.written, rest) else none := by
  have text : ace.toString ++ rest = writeFlags kMaskFlags ace.bits ++ ':' ::
      (writeFlags kAceFlagBits (ace.flags &&& ~~~identifierFlags) ++ ':' ::
        (writeType ace.type ++ ':' :: (ace.writeIdentifier ++ '/' :: rest))) := by
    simp [toString]
  unfold read
  rw [text, upTo_append (not_mem_letters (by decide))]
  simp only [bind, Option.bind, readFlags_writeFlags alphabet_mask]
  rw [upTo_append (not_mem_letters (by decide))]
  simp only [readFlags_letters]
  rw [upTo_append (ace.not_mem_writeType (by decide))]
  simp only [readType_writeType]
  unfold isReadable
  by_cases eq : (ace.isAllow || ace.isDeny) = true
  · rw [if_pos eq]
    rw [upTo_append (ace.not_mem_writeIdentifier (by decide) (by decide))]
    simp only [readIdentifier_writeIdentifier, eq, Bool.true_and]
    by_cases named : (!ace.has kSpecialWho || ace.isOwner || ace.isGroup || ace.isEveryone) = true
    · rw [if_pos named, if_pos named]
      rfl
    · rw [if_neg named, if_neg named]
  · simp [eq]

/-! ### Entries that their text says all of -/

/-- Every permission and every flag of an entry has a letter, and the group flag is not set where
it says nothing. -/
def hasLetters (ace : Ace) : Bool :=
  ace.bits &&& ~~~kValidMask = 0 && ace.flags &&& ~~~(letterFlags ||| identifierFlags) = 0 &&
    !(ace.has kSpecialWho && ace.has kIdentifierGroup)

theorem bits_inj {ace other : Ace} : ace.bits = other.bits ↔ ace.mask = other.mask := by
  constructor
  · intro eq
    have narrow := congrArg (BitVec.setWidth 21) eq
    unfold bits at narrow
    rwa [BitVec.setWidth_setWidth_of_le _ (by decide), BitVec.setWidth_setWidth_of_le _ (by decide),
      BitVec.setWidth_eq] at narrow
  · intro eq
    unfold bits
    rw [eq]

theorem bits_written (ace : Ace) : ace.written.bits = ace.bits &&& kValidMask := by
  unfold written bits make
  apply BitVec.eq_of_getLsbD_eq
  intro i inside
  simp only [BitVec.getLsbD_setWidth]
  by_cases low : i < 21
  · simp [inside, low]
  · simp [BitVec.getLsbD_of_ge ace.mask i (Nat.not_lt.mp low)]

theorem flags_written_eq_iff (ace : Ace) : ace.written.flags = ace.flags ↔
    ace.flags &&& ~~~(letterFlags ||| identifierFlags) = 0 ∧
      ¬ (ace.has kSpecialWho ∧ ace.has kIdentifierGroup) := by
  unfold written make whoFlags has
  dsimp only
  generalize ace.flags = flags
  revert flags
  decide +kernel

/-- An entry whose text says all of it is read back. -/
theorem written_eq_iff (ace : Ace) : ace.written = ace ↔ ace.hasLetters = true := by
  have fields : ace.written = ace ↔
      ace.written.flags = ace.flags ∧ ace.written.bits = ace.bits := by
    rw [bits_inj]
    constructor
    · intro eq
      rw [eq]
      exact ⟨rfl, rfl⟩
    · rintro ⟨flags, mask⟩
      rw [show ace.written = ⟨ace.type, ace.written.flags, ace.written.mask, ace.id⟩ from rfl,
        flags,
        mask]
  rw [fields, flags_written_eq_iff, bits_written, WordBits.and_eq_self_iff]
  simp only [hasLetters]
  cases ace.has kSpecialWho <;> cases ace.has kIdentifierGroup <;> simp [and_comm]

end Ace

/-! ## Lists -/

namespace RichACL

/-- [SPEC richacl_string.cc:205-217] Only the lower eight flags are looked at. -/
def toString (acl : RichACL) : List Char :=
  writeFlags kAclFlagBits (acl.flags &&& 0xFF) ++ '|' ::
    (writeFlags kMaskFlags acl.ownerMask ++ '|' ::
      (writeFlags kMaskFlags acl.groupMask ++ '|' ::
        (writeFlags kMaskFlags acl.otherMask ++ '|' :: acl.aceList.flatMap Ace.toString)))

/-- [SPEC richacl_string.cc:379-402] Every entry takes characters off the text, so that its
length bounds their number. -/
def readAces : Nat → List Char → Option (List Ace)
  | _, [] => some []
  | 0, _ :: _ => none
  | bound + 1, c :: text => do
      let (ace, rest) ← Ace.read (c :: text)
      let aces ← readAces bound rest
      return ace :: aces

/-- [SPEC richacl_string.cc:351-405] -/
def fromString (text : List Char) : Option RichACL := do
  let (field, text) ← upTo '|' text
  let flags ← readFlags kAclFlagBits field
  let (field, text) ← upTo '|' text
  let ownerMask ← readFlags kMaskFlags field
  let (field, text) ← upTo '|' text
  let groupMask ← readFlags kMaskFlags field
  let (field, text) ← upTo '|' text
  let otherMask ← readFlags kMaskFlags field
  let aceList ← readAces text.length text
  return ⟨ownerMask, groupMask, otherMask, flags, aceList⟩

/-- The flags with a letter. -/
def letterFlags : BitVec 16 :=
  kMasked ||| kWriteThrough ||| kAutoInherit ||| kProtected ||| kDefaulted

/-- A list with only what has a letter. -/
def written (acl : RichACL) : RichACL where
  ownerMask := acl.ownerMask &&& kValidMask
  groupMask := acl.groupMask &&& kValidMask
  otherMask := acl.otherMask &&& kValidMask
  flags := acl.flags &&& letterFlags
  aceList := acl.aceList.map Ace.written

theorem readAces_toString (aces : List Ace) {bound : Nat} (le : aces.length ≤ bound) :
    readAces bound (aces.flatMap Ace.toString) =
      if aces.all (·.isReadable) then some (aces.map Ace.written) else none := by
  induction aces generalizing bound with
  | nil => cases bound <;> rfl
  | cons ace aces ih =>
    obtain ⟨bound, rfl⟩ : ∃ less, bound = less + 1 := ⟨bound - 1, by
      rw [length_cons] at le
      omega⟩
    have later := ih (Nat.le_of_succ_le_succ le)
    have first := ace.read_toString (aces.flatMap Ace.toString)
    rw [flatMap_cons]
    obtain ⟨c, text, cons⟩ : ∃ c text, ace.toString ++ aces.flatMap Ace.toString = c :: text := by
      refine exists_cons_of_ne_nil fun empty => ?_
      simp [Ace.toString] at empty
    rw [cons] at first ⊢
    rw [readAces, first]
    by_cases readable : ace.isReadable = true
    · rw [if_pos readable]
      simp only [bind, Option.bind, later, all_cons, readable, Bool.true_and]
      cases aces.all (·.isReadable) with
      | true => rfl
      | false => rfl
    · simp [readable]

theorem length_le_flatMap_toString (aces : List Ace) :
    aces.length ≤ (aces.flatMap Ace.toString).length := by
  have each : ∀ n ∈ aces.map fun ace => ace.toString.length, 1 ≤ n := by
    refine forall_mem_map.mpr fun ace _ => length_pos_iff.mpr ?_
    simp [Ace.toString]
  simpa [length_flatMap] using card_nsmul_le_sum _ 1 each

/-- A list is read from its text, but for what has no letter; the text of some entries cannot be
read at all. -/
theorem fromString_toString (acl : RichACL) :
    fromString acl.toString =
      if acl.aceList.all (·.isReadable) then some acl.written else none := by
  have flags : acl.flags &&& 0xFF &&& allFlags kAclFlagBits = acl.flags &&& letterFlags := by
    rw [BitVec.and_assoc,
      show (0xFF : BitVec 16) &&& allFlags kAclFlagBits = letterFlags from by decide]
  unfold fromString toString
  rw [upTo_append (Ace.not_mem_letters (by decide))]
  simp only [bind, Option.bind, readFlags_writeFlags alphabet_acl]
  rw [upTo_append (Ace.not_mem_letters (by decide))]
  simp only [readFlags_writeFlags alphabet_mask]
  rw [upTo_append (Ace.not_mem_letters (by decide))]
  simp only [readFlags_writeFlags alphabet_mask]
  rw [upTo_append (Ace.not_mem_letters (by decide))]
  simp only [readFlags_writeFlags alphabet_mask,
    readAces_toString acl.aceList (length_le_flatMap_toString acl.aceList)]
  by_cases readable : acl.aceList.all (·.isReadable) = true
  · rw [if_pos readable, if_pos readable, flags]
    rfl
  · rw [if_neg readable, if_neg readable]

/-- No character of the text is a bracket, or a percent sign. -/
theorem not_mem_toString (acl : RichACL) {c : Char} (other : c = ')' ∨ c = '%') :
    c ∉ acl.toString := by
  have entry : ∀ ace : Ace, c ∉ ace.toString := by
    intro ace mem
    have mask : c ∉ writeFlags kMaskFlags ace.bits :=
      Ace.not_mem_letters (by rcases other with rfl | rfl <;> decide)
    have flags : c ∉ writeFlags kAceFlagBits (ace.flags &&& ~~~Ace.identifierFlags) :=
      Ace.not_mem_letters (by rcases other with rfl | rfl <;> decide)
    have type : c ∉ Ace.writeType ace.type :=
      ace.not_mem_writeType (by rcases other with rfl | rfl <;> decide)
    have who : c ∉ ace.writeIdentifier := ace.not_mem_writeIdentifier
      (by rcases other with rfl | rfl <;> decide) (by rcases other with rfl | rfl <;> decide)
    unfold Ace.toString at mem
    simp only [mem_append, mem_cons, mask, flags, type, who, not_mem_nil] at mem
    rcases other with rfl | rfl <;> simp at mem
  have flags : c ∉ writeFlags kAclFlagBits (acl.flags &&& 0xFF) :=
    Ace.not_mem_letters (by rcases other with rfl | rfl <;> decide)
  have mask : ∀ mask : Mask, c ∉ writeFlags kMaskFlags mask :=
    fun mask => Ace.not_mem_letters (by rcases other with rfl | rfl <;> decide)
  intro mem
  unfold toString at mem
  have bar : c ≠ '|' := by rcases other with rfl | rfl <;> decide
  simp only [mem_append, mem_cons, flags, mask, bar, false_or, mem_flatMap] at mem
  obtain ⟨ace, -, inside⟩ := mem
  exact entry ace inside

/-! ### Lists that their text says all of -/

theorem has_written (ace : Ace) {flag : BitVec 9} (eq : Ace.letterFlags &&& flag = flag)
    (outside : Ace.identifierFlags &&& flag = 0) : ace.written.has flag = ace.has flag := by
  have who : ace.whoFlags &&& flag = 0 := by
    have part : ace.whoFlags &&& Ace.identifierFlags = ace.whoFlags := by
      unfold Ace.whoFlags
      split
      · decide
      · split <;> decide
    rw [← part, BitVec.and_assoc, outside]
    exact BitVec.and_zero
  unfold Ace.has Ace.written Ace.make
  rw [BitVec.and_or_distrib_right, who, BitVec.and_assoc, eq]
  simp

theorem checkInheritFlags_written (acl : RichACL) (isDir : Bool) :
    acl.written.checkInheritFlags isDir = acl.checkInheritFlags isDir := by
  have only : ∀ ace : Ace, ace.written.isInheritOnly = ace.isInheritOnly :=
    fun ace => has_written ace (by decide) (by decide)
  have inheritable : ∀ ace : Ace, ace.written.isInheritable = ace.isInheritable :=
    fun ace => has_written ace (by decide) (by decide)
  unfold checkInheritFlags written
  simp only [all_map, Function.comp_def, only, inheritable]

theorem has_kAutoSetMode_written (acl : RichACL) : acl.written.has kAutoSetMode = false := by
  unfold has written
  rw [BitVec.and_assoc, show letterFlags &&& kAutoSetMode = 0 from by decide]
  simp

/-! ### Lists that stand for a mode -/

namespace ModeState

/-- What is known of the permissions with a letter. -/
def clip (s : ModeState) : ModeState where
  ownerAllowed := s.ownerAllowed &&& kValidMask
  ownerDefined := s.ownerDefined &&& kValidMask
  groupAllowed := s.groupAllowed &&& kValidMask
  groupDefined := s.groupDefined &&& kValidMask
  everyoneAllowed := s.everyoneAllowed &&& kValidMask
  everyoneDefined := s.everyoneDefined &&& kValidMask

theorem clip_start (isDir : Bool) : clip (start isDir) = start isDir := by
  cases isDir <;> decide

/-- Permissions with a letter that are not defined yet. -/
theorem clip_undefined (bits defined : Mask) :
    bits &&& kValidMask &&& ~~~(defined &&& kValidMask) = bits &&& ~~~defined &&& kValidMask := by
  generalize kValidMask = valid
  ext i _
  simp only [BitVec.getElem_and, BitVec.getElem_not]
  cases bits[i] <;> cases defined[i] <;> cases valid[i] <;> rfl

theorem clip_or (mask more : Mask) :
    mask &&& kValidMask ||| more &&& kValidMask = (mask ||| more) &&& kValidMask :=
  (BitVec.and_or_distrib_right).symm

theorem clip_and (mask more : Mask) :
    mask &&& kValidMask &&& (more &&& kValidMask) = mask &&& more &&& kValidMask := by
  generalize kValidMask = valid
  ext i _
  simp only [BitVec.getElem_and]
  cases mask[i] <;> cases more[i] <;> cases valid[i] <;> rfl

theorem clip_eq_zero {mask : Mask} (zero : mask = 0) : mask &&& kValidMask = 0 := by
  rw [zero]
  exact BitVec.zero_and

variable {ace other : Ace} {s t : ModeState}

/-- An entry with fewer permissions never conflicts more. -/
theorem ownerAce_clip (allow : other.isAllow = ace.isAllow)
    (bits : other.bits = ace.bits &&& kValidMask) (some : s.ownerAce ace = some t) :
    s.clip.ownerAce other = Option.some t.clip := by
  unfold ownerAce at some ⊢
  dsimp only at some
  rw [allow, bits]
  unfold clip
  rw [clip_undefined]
  split at some
  next isAllow =>
    split at some
    · cases some
    next noConflict =>
      rw [if_pos isAllow, clip_undefined, clip_and, if_neg (by
        rw [not_not] at noConflict ⊢
        exact clip_eq_zero noConflict), clip_or, clip_or]
      cases some
      rfl
  next isDeny =>
    split at some
    · cases some
    next noConflict =>
      rw [if_neg isDeny, clip_and, if_neg (by
        rw [not_not] at noConflict ⊢
        exact clip_eq_zero noConflict), clip_or]
      cases some
      rfl

theorem everyoneAce_clip (allow : other.isAllow = ace.isAllow)
    (bits : other.bits = ace.bits &&& kValidMask) :
    s.clip.everyoneAce other = (s.everyoneAce ace).clip := by
  unfold everyoneAce clip
  dsimp only
  rw [allow, bits, clip_undefined, clip_undefined, clip_or, clip_or, clip_or, clip_or]
  split <;> rfl

theorem groupAce_clip (allow : other.isAllow = ace.isAllow)
    (bits : other.bits = ace.bits &&& kValidMask) :
    s.clip.groupAce other = (s.groupAce ace).clip := by
  unfold groupAce clip
  dsimp only
  rw [allow, bits, clip_undefined, clip_or, clip_or]
  split <;> rfl

/-- Lists that stand for a mode have entries that are written with their flags. -/
theorem flags_written_of_addAce (some : s.addAce ace = some t) : ace.written.flags = ace.flags := by
  have special : ace.has Ace.kSpecialWho = true := by
    by_contra noSpecial
    simp [addAce, Ace.isOwner, Ace.isEveryone, Ace.isGroup, noSpecial] at some
  have only : ace.flags &&& ~~~Ace.kSpecialWho = 0 := by
    by_contra more
    unfold addAce at some
    rw [if_pos more] at some
    cases some
  rw [Ace.flags_written_eq_iff]
  unfold Ace.has at special ⊢
  generalize ace.flags = flags at special only ⊢
  revert flags
  decide +kernel

theorem addAce_written (some : s.addAce ace = some t) :
    s.clip.addAce ace.written = Option.some t.clip := by
  have flags := flags_written_of_addAce some
  have owner : ace.written.isOwner = ace.isOwner := by
    unfold Ace.isOwner Ace.has
    rw [flags]
    rfl
  have everyone : ace.written.isEveryone = ace.isEveryone := by
    unfold Ace.isEveryone Ace.has
    rw [flags]
    rfl
  have group : ace.written.isGroup = ace.isGroup := by
    unfold Ace.isGroup Ace.has
    rw [flags]
    rfl
  have allow : ace.written.isAllow = ace.isAllow := rfl
  have bits := ace.bits_written
  unfold addAce at some ⊢
  rw [flags, owner, everyone, group]
  split at some
  · cases some
  next special =>
    rw [if_neg special]
    split at some
    next ofOwner =>
      obtain ⟨u, added, rfl⟩ := Option.map_eq_some_iff.mp some
      rw [if_pos ofOwner, ownerAce_clip allow bits added, Option.map_some, apply_ite clip,
        everyoneAce_clip allow bits]
    next notOfOwner =>
      rw [if_neg notOfOwner]
      split at some
      next ofGroup =>
        cases some
        rw [if_pos ofGroup, groupAce_clip allow bits]
      · cases some

theorem addAces_written {aces : List Ace} (some : addAces aces s = some t) :
    addAces (aces.map Ace.written) s.clip = Option.some t.clip := by
  unfold addAces at some ⊢
  induction aces generalizing s with
  | nil =>
    cases some
    rfl
  | cons ace aces ih =>
    obtain ⟨u, first, later⟩ := Option.bind_eq_some_iff.mp some
    rw [map_cons, foldlM_cons, addAce_written first]
    exact ih later

end ModeState

/-- The permissions of a mode have letters. -/
theorem convertMask2Mode_clip (mask : Mask) :
    convertMask2Mode (mask &&& kValidMask) = convertMask2Mode mask := by
  unfold convertMask2Mode
  rw [BitVec.and_assoc, BitVec.and_assoc, BitVec.and_assoc,
    show kValidMask &&& kPosixModeRead = kPosixModeRead from by decide,
    show kValidMask &&& kPosixModeWrite = kPosixModeWrite from by decide,
    show kValidMask &&& kPosixModeExec = kPosixModeExec from by decide]

theorem convertMode2Mask_clip (mode : Mode) :
    convertMode2Mask mode &&& kValidMask = convertMode2Mask mode := by
  unfold convertMode2Mask
  split <;> split <;> split <;> decide

/-- A mask that agrees with a mode does so without what has no letter. -/
theorem differs_clip {mode : Mode} {mask outside : Mask}
    (agree : (convertMode2Mask mode ^^^ mask) &&& ~~~outside = 0) :
    (convertMode2Mask mode ^^^ mask &&& kValidMask) &&& ~~~outside = 0 := by
  have clipped : (convertMode2Mask mode ^^^ mask &&& kValidMask) &&& ~~~outside =
      (convertMode2Mask mode ^^^ mask) &&& ~~~outside &&& kValidMask := by
    rw [← convertMode2Mask_clip mode]
    generalize kValidMask = valid
    generalize convertMode2Mask mode = bits
    ext i _
    simp only [BitVec.getElem_and, BitVec.getElem_xor, BitVec.getElem_not]
    cases bits[i] <;> cases mask[i] <;> cases valid[i] <;> cases outside[i] <;> rfl
  rw [clipped, agree]
  exact BitVec.zero_and

theorem maskedModes_written {acl : RichACL} (flags : acl.written.flags = acl.flags)
    (s : ModeState) :
    acl.written.maskedModes s.clip =
      ((acl.maskedModes s).1 &&& kValidMask, (acl.maskedModes s).2.1 &&& kValidMask,
        (acl.maskedModes s).2.2 &&& kValidMask) := by
  unfold maskedModes has
  rw [flags]
  unfold written ModeState.clip
  rw [ModeState.clip_and, ModeState.clip_and, ModeState.clip_and]
  split
  · split <;> rfl
  · rfl

/-- A list that stands for a mode does so in its text. -/
theorem equivMode_written {acl : RichACL} {mode equivalent : Mode} {isDir : Bool}
    (stands : acl.equivMode mode isDir = some equivalent) :
    acl.written.equivMode mode isDir = some equivalent := by
  unfold equivMode at stands ⊢
  split at stands
  · cases stands
  next only =>
    have eq : acl.flags &&& (kWriteThrough ||| kMasked) = acl.flags :=
      WordBits.and_eq_self_iff.mpr (not_not.mp only)
    have flags : acl.written.flags = acl.flags := by
      show acl.flags &&& letterFlags = acl.flags
      rw [← eq, BitVec.and_assoc,
        show (kWriteThrough ||| kMasked) &&& letterFlags = kWriteThrough ||| kMasked from by decide]
    have noAuto : acl.has kAutoSetMode = false := by
      unfold has
      rw [← eq, BitVec.and_assoc,
        show (kWriteThrough ||| kMasked) &&& kAutoSetMode = 0 from by decide]
      simp
    have noAuto' : acl.written.has kAutoSetMode = false := by
      rw [← noAuto]
      unfold has
      rw [flags]
    rw [noAuto] at stands
    obtain ⟨s, added, result⟩ := Option.bind_eq_some_iff.mp stands
    have addedClipped := ModeState.addAces_written added
    rw [ModeState.clip_start] at addedClipped
    rw [flags, if_neg only, noAuto', if_neg (by simp),
      show acl.written.aceList = acl.aceList.map Ace.written from rfl, addedClipped,
      Option.bind_some, maskedModes_written flags,
      show s.clip.groupAllowed &&& ~~~s.clip.ownerDefined =
        s.groupAllowed &&& ~~~s.ownerDefined &&& kValidMask from ModeState.clip_undefined _ _]
    dsimp only at result ⊢
    split at result
    · cases result
    next noConflict =>
      rw [if_neg (by
        rw [not_not] at noConflict ⊢
        exact ModeState.clip_eq_zero noConflict), convertMask2Mode_clip, convertMask2Mode_clip,
        convertMask2Mode_clip]
      split at result
      · cases result
      next agrees =>
        simp only [Bool.or_eq_true, decide_eq_true_eq, not_or, not_not] at agrees
        rw [if_neg, result]
        simp only [Bool.or_eq_true, decide_eq_true_eq, not_or, not_not]
        exact ⟨⟨differs_clip agrees.1.1, differs_clip agrees.1.2⟩, differs_clip agrees.2⟩

end RichACL

end LeilFS.Acl
