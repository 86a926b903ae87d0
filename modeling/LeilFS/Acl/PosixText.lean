/-
Module: LeilFS.Acl.PosixText
Purpose: POSIX access control lists as text in the log, and which lists are read from it.
Trusted boundary: none
-/
import LeilFS.Acl.AclConverter
import LeilFS.Lib.LogText

namespace LeilFS.Acl

open List LogText

/-! ## Text -/

/-- [SPEC access_control_list.cc:27-33] -/
def accessMaskToChar (mask : Rights) : Char :=
  if 7 < mask then '?' else Char.ofNat ('0'.toNat + mask.toNat)

/-- [SPEC access_control_list.cc:35-42] -/
def accessMaskFromChar (c : Char) : Option Rights :=
  if '0' ≤ c ∧ c ≤ '7' then some (BitVec.ofNat 4 (c.toNat - '0'.toNat)) else none

/-- [SPEC access_control_list.cc:44-52] -/
def entryTypeFromChar (c : Char) : EntryType :=
  if c = 'u' then kNamedUser
  else if c = 'g' then kNamedGroup
  else if c = 'm' then kMask
  else kInvalid

/-- The text of a named user or group; other entries of the list are not written
[SPEC access_control_list.cc:127-134]. -/
def Entry.toString (entry : Entry) : List Char :=
  let named (letter : Char) : List Char :=
    '/' :: letter :: ':' :: (number entry.id.toNat ++ [':', accessMaskToChar entry.accessRights])
  (if entry.type = kNamedUser then named 'u' else []) ++
    if entry.type = kNamedGroup then named 'g' else []

namespace AccessControlList

/-- The text of the mask, if there is one [SPEC access_control_list.cc:135-137]. -/
def maskText (rights : Rights) : List Char :=
  if rights ≠ kMaskUnset then ['/', 'm', ':', ':', accessMaskToChar rights] else []

/-- [SPEC access_control_list.cc:118-139] -/
def toString (acl : AccessControlList) : List Char :=
  'A' :: accessMaskToChar acl.ownerRights :: accessMaskToChar acl.groupRights ::
    accessMaskToChar acl.otherRights ::
      (acl.list.flatMap Entry.toString ++ maskText acl.maskRights)

/-- The id of an entry: none stands for the undefined one
[SPEC access_control_list.cc:87-97]. -/
def readId (text : List Char) : Option (UInt32 × List Char) :=
  if text.head? = some ':' then some (kUndefinedId, text)
  else
    let (id, rest) := scanNumber text
    if rest = text then none else some (UInt32.ofNat (min id (2 ^ 63 - 1)), rest)

/-- An entry that was read is set, unless it is there already
[SPEC access_control_list.cc:101-114]. -/
def addEntry (acl : AccessControlList) (type : EntryType) (id : UInt32) (rights : Rights) :
    Option AccessControlList :=
  if type = kInvalid then none
  else if (acl.getEntry type id).type ≠ kInvalid then none
  else if id = kUndefinedId ∧ (type = kNamedUser ∨ type = kNamedGroup) then none
  else some (acl.setEntry type id rights)

/-- One entry, and the text behind it [SPEC access_control_list.cc:79-115]. -/
def readEntry (acl : AccessControlList) (text : List Char) :
    Option (AccessControlList × List Char) := do
  let text ← eat '/' text
  let type := (text.head?.map entryTypeFromChar).getD kInvalid
  let text ← eat ':' text.tail
  let (id, text) ← readId text
  let text ← eat ':' text
  let rights ← accessMaskFromChar (← text.head?)
  let acl ← acl.addEntry type id rights
  return (acl, text.tail)

/-- Every entry takes characters off the text, so that its length bounds their number. -/
def readEntries : Nat → AccessControlList → List Char → Option AccessControlList
  | _, acl, [] => some acl
  | 0, _, _ :: _ => none
  | bound + 1, acl, c :: text => do
      let (acl, rest) ← acl.readEntry (c :: text)
      readEntries bound acl rest

/-- [SPEC access_control_list.cc:63-117] -/
def fromString : List Char → Option AccessControlList
  | 'A' :: owner :: group :: other :: text => do
      let ownerRights ← accessMaskFromChar owner
      let groupRights ← accessMaskFromChar group
      let otherRights ← accessMaskFromChar other
      readEntries text.length { empty with ownerRights, groupRights, otherRights } text
  | _ => none

end AccessControlList

/-! ## Characters -/

theorem accessMaskFromChar_toChar (rights : Rights) :
    accessMaskFromChar (accessMaskToChar rights) = if rights ≤ 7 then some rights else none := by
  revert rights
  decide

theorem accessMaskToChar_ne {c : Char} (eq : c = ')' ∨ c = '%') (rights : Rights) :
    accessMaskToChar rights ≠ c := by
  revert rights
  rcases eq with rfl | rfl <;> decide

/-! ## Entries -/

namespace AccessControlList

variable {acl : AccessControlList} {entry : Entry} {entries : List Entry}

theorem toString_of_not_named (eq : entry.isNamed = false) : entry.toString = [] := by
  unfold Entry.isNamed at eq
  simp only [Bool.or_eq_false_iff, decide_eq_false_iff_not] at eq
  simp [Entry.toString, eq.1, eq.2]

theorem toString_of_named (named : entry.isNamed = true) :
    ∃ letter, entryTypeFromChar letter = entry.type ∧ entry.toString =
      '/' :: letter :: ':' ::
        (number entry.id.toNat ++ [':', accessMaskToChar entry.accessRights]) := by
  unfold Entry.isNamed at named
  simp only [Bool.or_eq_true, decide_eq_true_eq] at named
  rcases named with user | group
  · refine ⟨'u', user ▸ rfl, ?_⟩
    simp [Entry.toString, user, show kNamedUser ≠ kNamedGroup by decide]
  · refine ⟨'g', group ▸ rfl, ?_⟩
    simp [Entry.toString, group, show kNamedGroup ≠ kNamedUser by decide]

theorem flatMap_toString (entries : List Entry) :
    entries.flatMap Entry.toString = (entries.filter (·.isNamed)).flatMap Entry.toString := by
  induction entries with
  | nil => rfl
  | cons entry entries ih =>
    rw [flatMap_cons, ih]
    cases named : entry.isNamed with
    | true => rw [filter_cons_of_pos named, flatMap_cons]
    | false => rw [toString_of_not_named named, filter_cons_of_neg (by simp [named]), nil_append]

/-- An id is read up to the colon. -/
theorem readId_number (id : UInt32) (rest : List Char) :
    readId (number id.toNat ++ ':' :: rest) = some (id, ':' :: rest) := by
  have read : scanNumber (number id.toNat ++ ':' :: rest) = (id.toNat, ':' :: rest) :=
    scanNumber_number id.toNat (by simp)
  obtain ⟨digit, digits, cons⟩ := exists_cons_of_ne_nil (number_ne_nil id.toNat)
  have isDigit : digit.isDigit = true := isDigit_of_mem_number (by rw [cons]; exact mem_cons_self)
  have lt : id.toNat < 2 ^ 32 := id.toNat_lt
  have noColon : (number id.toNat ++ ':' :: rest).head? ≠ some ':' := by
    rw [cons, cons_append, head?_cons, ne_eq, Option.some.injEq]
    rintro rfl
    exact absurd isDigit (by decide)
  have consumed : ':' :: rest ≠ number id.toNat ++ ':' :: rest := by
    intro eq
    have lengths := congrArg length eq
    rw [cons] at lengths
    simp only [length_cons, length_append] at lengths
    omega
  unfold readId
  rw [if_neg noColon, read]
  dsimp only
  rw [if_neg consumed, Nat.min_eq_left (by omega), UInt32.ofNat_toNat]

/-- An entry is read up to its end. -/
theorem readEntry_text (acl : AccessControlList) {letter : Char} {id : UInt32} {rights : Rights}
    {text rest : List Char}
    (read : readId text = some (id, ':' :: accessMaskToChar rights :: rest)) :
    acl.readEntry ('/' :: letter :: ':' :: text) =
      if rights ≤ 7 then
        (acl.addEntry (entryTypeFromChar letter) id rights).map fun acl => (acl, rest)
      else none := by
  unfold readEntry
  simp only [bind, Option.bind, eat_cons, head?_cons, Option.map_some, Option.getD_some,
    tail_cons, read, accessMaskFromChar_toChar]
  by_cases le : rights ≤ 7
  · rw [if_pos le, if_pos le]
    dsimp only
    cases acl.addEntry (entryTypeFromChar letter) id rights <;> rfl
  · rw [if_neg le, if_neg le]

theorem readEntry_named (acl : AccessControlList) (named : entry.isNamed = true)
    (rest : List Char) : acl.readEntry (entry.toString ++ rest) =
      if entry.accessRights ≤ 7 then
        (acl.addEntry entry.type entry.id entry.accessRights).map fun acl => (acl, rest)
      else none := by
  obtain ⟨letter, type, text⟩ := toString_of_named named
  rw [text, ← type, ← acl.readEntry_text (readId_number _ _)]
  simp

/-- One named entry, added to those that were read before. -/
def addNamed (acl : AccessControlList) (entry : Entry) : Option AccessControlList :=
  if entry.accessRights ≤ 7 then acl.addEntry entry.type entry.id entry.accessRights else none

/-- Named entries are read one after the other. -/
theorem readEntries_named (named : ∀ entry ∈ entries, entry.isNamed = true)
    (acl : AccessControlList) (bound : Nat) (tail : List Char) :
    readEntries (entries.length + bound) acl (entries.flatMap Entry.toString ++ tail) =
      (entries.foldlM addNamed acl).bind fun acl => readEntries bound acl tail := by
  induction entries generalizing acl with
  | nil => simp
  | cons entry entries ih =>
    have later := ih fun other mem => named other (mem_cons_of_mem entry mem)
    have isNamed := named entry mem_cons_self
    obtain ⟨letter, _, text⟩ := toString_of_named isNamed
    have first := acl.readEntry_named isNamed (entries.flatMap Entry.toString ++ tail)
    rw [flatMap_cons, append_assoc, length_cons, Nat.add_right_comm, foldlM_cons]
    rw [text, cons_append] at first ⊢
    rw [readEntries, first]
    unfold addNamed
    by_cases le : entry.accessRights ≤ 7
    · rw [if_pos le, if_pos le]
      cases acl.addEntry entry.type entry.id entry.accessRights with
      | none => rfl
      | some acl => exact later acl
    · rw [if_neg le, if_neg le]
      rfl

/-- The mask is read last. -/
theorem readEntries_maskText (acl : AccessControlList) (rights : Rights) {bound : Nat}
    (le : (maskText rights).length ≤ bound) : readEntries bound acl (maskText rights) =
      if rights = kMaskUnset then some acl
      else if rights ≤ 7 then acl.addEntry kMask kUndefinedId rights
      else none := by
  unfold maskText at le ⊢
  by_cases unset : rights = kMaskUnset
  · rw [if_neg (not_not.mpr unset), if_pos unset]
    cases bound <;> rfl
  rw [if_pos unset] at le ⊢
  obtain ⟨bound, rfl⟩ : ∃ less, bound = less + 1 := ⟨bound - 1, by
    rw [length_cons] at le
    omega⟩
  have read : readId [':', accessMaskToChar rights] =
      some (kUndefinedId, [':', accessMaskToChar rights]) := by
    simp [readId]
  rw [readEntries, acl.readEntry_text read, show entryTypeFromChar 'm' = kMask from rfl]
  split
  · cases acl.addEntry kMask kUndefinedId rights with
    | none => rfl
    | some acl => cases bound <;> rfl
  · rfl

/-! ### Entries in their places -/

theorem findNamed_eq_none (h : acl.Sorted) {type : EntryType}
    {id : UInt32} : acl.findNamed type id = none ↔
      ∀ entry ∈ acl.list, entry.key ≠ Entry.place type id := by
  rw [Option.eq_none_iff_forall_ne_some]
  constructor
  · intro none entry mem eq
    exact none entry ((findNamed_eq_some h).mpr ⟨mem, Entry.place_inj.mp eq⟩)
  · intro absent entry found
    obtain ⟨mem, rfl, rfl⟩ := (findNamed_eq_some h).mp found
    exact absent entry mem rfl

/-- A new entry stands in its place among the others. -/
theorem setNamed_absent (h : acl.Sorted)
    (absent : ∀ other ∈ acl.list, other.key ≠ entry.key) (lt : acl.list.length < maxSize) :
    ∃ list, acl.setNamed entry.type entry.id entry.accessRights = { acl with list := list } ∧
      list.Perm (acl.list ++ [entry]) ∧ list.Pairwise fun entry later => entry.key < later.key := by
  have whole := acl.below_append_fromPlace entry.type entry.id
  have suffix : (acl.fromPlace entry.type entry.id).Sublist acl.list := dropWhile_sublist _
  refine ⟨acl.below entry.type entry.id ++ entry :: acl.fromPlace entry.type entry.id, ?_, ?_, ?_⟩
  · unfold setNamed
    cases place : acl.fromPlace entry.type entry.id with
    | nil => rw [if_pos lt]
    | cons first rest =>
      have other : ¬ (first.type = entry.type ∧ first.id = entry.id) := fun eq =>
        absent first (suffix.subset (by rw [place]; exact mem_cons_self)) (Entry.place_inj.mpr eq)
      dsimp only
      rw [if_neg other, if_pos lt]
  · refine perm_middle.trans ?_
    rw [whole]
    exact (perm_append_singleton entry acl.list).symm
  · have after : ∀ later ∈ acl.fromPlace entry.type entry.id, entry.key < later.key := by
      intro later mem
      exact lt_of_le_of_ne (le_key_of_mem_fromPlace h mem)
        (Ne.symm (absent later (suffix.subset mem)))
    refine pairwise_append.mpr ⟨h.sublist (takeWhile_sublist _), ?_, ?_⟩
    · exact pairwise_cons.mpr ⟨after, h.sublist suffix⟩
    · intro other prev later mem
      have low : other.key < entry.key := key_lt_of_mem_below prev
      rcases mem_cons.mp mem with rfl | behind
      · exact low
      · exact low.trans (after later behind)

/-- A named entry is added if it can be read and is not there. -/
theorem addNamed_eq (h : acl.Sorted) (named : entry.isNamed = true) : acl.addNamed entry =
      if entry.accessRights ≤ 7 ∧ entry.id ≠ kUndefinedId ∧
          ∀ other ∈ acl.list, other.key ≠ entry.key
      then some (acl.setNamed entry.type entry.id entry.accessRights) else none := by
  have type : entry.type = kNamedUser ∨ entry.type = kNamedGroup := by
    simpa [Entry.isNamed] using named
  have valid : entry.type ≠ kInvalid := by
    rcases type with user | group
    · rw [user]
      decide
    · rw [group]
      decide
  have there : (acl.getEntry entry.type entry.id).type ≠ kInvalid ↔
      ¬ ∀ other ∈ acl.list, other.key ≠ entry.key := by
    rw [show entry.key = Entry.place entry.type entry.id from rfl, ← findNamed_eq_none h]
    unfold getEntry
    rw [if_pos type]
    cases found : acl.findNamed entry.type entry.id with
    | none => simp
    | some other =>
      obtain ⟨_, eq, _⟩ := (findNamed_eq_some h).mp found
      simp [eq, valid]
  unfold addNamed addEntry
  rw [if_neg valid]
  by_cases le : entry.accessRights ≤ 7
  · by_cases absent : ∀ other ∈ acl.list, other.key ≠ entry.key
    · by_cases undefined : entry.id = kUndefinedId
      · simp [undefined, type]
      · rw [if_pos le, if_neg (mt there.mp (not_not.mpr absent)), if_neg (by simp [undefined]),
          if_pos ⟨le, undefined, absent⟩]
        unfold setEntry
        rw [if_pos type]
    · rw [if_pos le, if_pos (there.mpr absent), if_neg (fun all => absent all.2.2)]
  · rw [if_neg le, if_neg (fun all => le all.1)]

/-! ## Lists -/

/-- The text of a list can be read: rights have a digit, ids are not the undefined one, and no
user or group is named twice. -/
structure Readable (acl : AccessControlList) : Prop where
  owner : acl.ownerRights ≤ 7
  group : acl.groupRights ≤ 7
  other : acl.otherRights ≤ 7
  mask : acl.maskRights ≤ 7 ∨ acl.maskRights = kMaskUnset
  entries : ∀ entry ∈ acl.namedEntries, entry.accessRights ≤ 7 ∧ entry.id ≠ kUndefinedId
  once : acl.NamedOnce

/-- The basic rights of a list, before its entries are read. -/
def basic (acl : AccessControlList) : AccessControlList :=
  { empty with
    ownerRights := acl.ownerRights
    groupRights := acl.groupRights
    otherRights := acl.otherRights }

/-- Entries are read exactly if each of them can be and none names whom another one names. Those
that were read stand in order. -/
theorem foldlM_addNamed (acl : AccessControlList) (named : ∀ entry ∈ entries, entry.isNamed = true)
    (le : entries.length ≤ maxSize) : (entries.foldlM addNamed acl.basic = none ∧
      ¬((∀ entry ∈ entries, entry.accessRights ≤ 7 ∧ entry.id ≠ kUndefinedId) ∧
        (entries.map Entry.key).Nodup)) ∨
    ∃ list, entries.foldlM addNamed acl.basic = some { acl.basic with list := list } ∧
      list.Perm entries ∧ (list.Pairwise fun entry later => entry.key < later.key) ∧
      ∀ entry ∈ entries, entry.accessRights ≤ 7 ∧ entry.id ≠ kUndefinedId := by
  induction entries using reverseRecOn with
  | nil => exact .inr ⟨[], rfl, List.Perm.refl _, List.Pairwise.nil, by simp⟩
  | append_singleton entries entry ih =>
    rw [length_append, length_singleton] at le
    rw [foldlM_append]
    obtain ⟨none, bad⟩ | ⟨list, read, perm, ordered, fine⟩ :=
      ih (fun other mem => named other (mem_append_left _ mem)) (by omega)
    · refine .inl ⟨by rw [none]; rfl, fun good => bad ⟨fun other mem =>
        good.1 other (mem_append_left _ mem), ?_⟩⟩
      exact good.2.sublist ((sublist_append_left _ _).map _)
    · have sorted : Sorted { acl.basic with list := list } := ordered
      have last : [entry].foldlM addNamed { acl.basic with list := list } =
          addNamed { acl.basic with list := list } entry := by simp
      rw [read, Option.bind_eq_bind, Option.bind_some, last,
        addNamed_eq sorted (named entry (by simp))]
      split
      next all =>
        obtain ⟨more, made, permMore, orderedMore⟩ := setNamed_absent sorted all.2.2
          (show list.length < maxSize by rw [perm.length_eq]; omega)
        refine .inr ⟨more, by rw [made], permMore.trans (perm.append_right _), orderedMore, ?_⟩
        exact forall_mem_append.mpr ⟨fine, forall_mem_singleton.mpr ⟨all.1, all.2.1⟩⟩
      next missing =>
        refine .inl ⟨rfl, fun good => missing ?_⟩
        have here := good.1 entry (by simp)
        refine ⟨here.1, here.2, fun other mem eq => ?_⟩
        rw [map_append, nodup_append] at good
        exact good.2.2.2 _ (mem_map_of_mem (perm.mem_iff.mp mem)) _ mem_cons_self eq

theorem addEntry_mask (unset : acl.maskRights = kMaskUnset) (rights : Rights) :
    acl.addEntry kMask kUndefinedId rights = some { acl with maskRights := rights } := by
  have absent : acl.getEntry kMask kUndefinedId = ⟨kUndefinedId, kInvalid, 0⟩ := by
    unfold getEntry
    simp [unset, show kMask ≠ kNamedUser by decide, show kMask ≠ kNamedGroup by decide,
      show kMask ≠ kUser by decide, show kMask ≠ kGroup by decide, show kMask ≠ kOther by decide]
  unfold addEntry
  rw [absent, if_neg (by decide), if_neg (by simp)]
  rfl

theorem length_le_flatMap_toString (named : ∀ entry ∈ entries, entry.isNamed = true) :
    6 * entries.length ≤ (entries.flatMap Entry.toString).length := by
  have each : ∀ n ∈ entries.map fun entry => entry.toString.length, 6 ≤ n := by
    refine forall_mem_map.mpr fun entry mem => ?_
    obtain ⟨letter, _, text⟩ := toString_of_named (named entry mem)
    have digits := length_pos_of_ne_nil (number_ne_nil entry.id.toNat)
    rw [text]
    simp only [length_cons, length_append]
    omega
  simpa [length_flatMap, mul_comm] using card_nsmul_le_sum _ 6 each

theorem isNamed_of_mem_namedEntries (mem : entry ∈ acl.namedEntries) : entry.isNamed = true :=
  (mem_filter.mp mem).2

/-- Every named entry takes some characters of the text. -/
theorem length_namedEntries_le (acl : AccessControlList) :
    6 * acl.namedEntries.length ≤ acl.toString.length := by
  have entries : 6 * acl.namedEntries.length ≤ (acl.namedEntries.flatMap Entry.toString).length :=
    length_le_flatMap_toString fun entry => isNamed_of_mem_namedEntries
  unfold toString
  rw [flatMap_toString, ← namedEntries]
  simp only [length_cons, length_append]
  omega

/-- The basic rights are read, then the named entries, then the mask. -/
theorem fromString_eq (acl : AccessControlList) : fromString acl.toString =
    if acl.ownerRights ≤ 7 ∧ acl.groupRights ≤ 7 ∧ acl.otherRights ≤ 7 then
      (acl.namedEntries.foldlM addNamed acl.basic).bind fun read =>
        if acl.maskRights = kMaskUnset then some read
        else if acl.maskRights ≤ 7 then read.addEntry kMask kUndefinedId acl.maskRights
        else none else none := by
  have named : ∀ entry ∈ acl.namedEntries, entry.isNamed = true :=
    fun entry => isNamed_of_mem_namedEntries
  have long := length_le_flatMap_toString named
  obtain ⟨bound, enough⟩ : ∃ bound,
      (acl.namedEntries.flatMap Entry.toString ++ maskText acl.maskRights).length =
        acl.namedEntries.length + bound := ⟨_, (Nat.add_sub_of_le (by
          rw [length_append]
          omega)).symm⟩
  have rest : (maskText acl.maskRights).length ≤ bound := by
    rw [length_append] at enough
    omega
  have entries := readEntries_named named acl.basic bound (maskText acl.maskRights)
  simp only [readEntries_maskText _ _ rest] at entries
  unfold toString fromString
  simp only [bind, Option.bind, accessMaskFromChar_toChar]
  rw [flatMap_toString, ← namedEntries, enough]
  by_cases owner : acl.ownerRights ≤ 7
  · by_cases group : acl.groupRights ≤ 7
    · by_cases le : acl.otherRights ≤ 7
      · rw [if_pos owner, if_pos group, if_pos le, if_pos ⟨owner, group, le⟩]
        exact entries
      · simp only [owner, group, le, if_true, if_false, and_false]
    · simp only [owner, group, if_true, if_false, and_false, false_and]
  · simp only [owner, if_false, false_and]

/-- What is read from the text of a list is the list with its named entries in order. -/
theorem fromString_toString {acl read : AccessControlList}
    (le : acl.namedEntries.length ≤ maxSize) (result : fromString acl.toString = some read) :
    acl.Readable ∧ ∃ list, read = { acl with list := list } ∧ list.Perm acl.namedEntries ∧
      list.Pairwise fun entry later => entry.key < later.key := by
  rw [fromString_eq] at result
  split at result
  next basics =>
    obtain ⟨first, folded, masked⟩ := Option.bind_eq_some_iff.mp result
    obtain ⟨none, -⟩ | ⟨list, eq, perm, ordered, fine⟩ :=
      acl.foldlM_addNamed (fun entry => isNamed_of_mem_namedEntries) le
    · exact nomatch none.symm.trans folded
    obtain rfl := Option.some.inj (eq.symm.trans folded)
    have mask : (acl.maskRights ≤ 7 ∨ acl.maskRights = kMaskUnset) ∧
        read = { acl with list := list } := by
      split at masked
      next unset =>
        cases masked
        refine ⟨.inr unset, ?_⟩
        rw [unset]
        rfl
      · split at masked
        next small =>
          cases masked
          exact ⟨.inl small, rfl⟩
        · cases masked
    have keys : (list.map Entry.key).Nodup := pairwise_map.mpr (ordered.imp Nat.ne_of_lt)
    exact ⟨⟨basics.1, basics.2.1, basics.2.2, mask.1, fine, (perm.map Entry.key).nodup_iff.mp keys⟩,
      list, mask.2, perm, ordered⟩
  · cases result

/-- A list whose text can be read is read. -/
theorem exists_fromString (le : acl.namedEntries.length ≤ maxSize)
    (h : acl.Readable) : ∃ read, fromString acl.toString = some read := by
  obtain ⟨-, bad⟩ | ⟨list, folded, -⟩ :=
    acl.foldlM_addNamed (fun entry => isNamed_of_mem_namedEntries) le
  · exact absurd ⟨h.entries, h.once⟩ bad
  rw [fromString_eq, if_pos ⟨h.owner, h.group, h.other⟩, folded, Option.bind_some]
  split
  · exact ⟨_, rfl⟩
  next isSet =>
    rw [if_pos (h.mask.resolve_right isSet)]
    exact ⟨_, addEntry_mask rfl _⟩

/-- No character of the text is a bracket, or a percent sign. -/
theorem not_mem_toString (acl : AccessControlList) {c : Char} (eq : c = ')' ∨ c = '%') :
    c ∉ acl.toString := by
  have rights : ∀ rights : Rights, c ≠ accessMaskToChar rights :=
    fun rights => (accessMaskToChar_ne eq rights).symm
  have digits : ∀ n : Nat, c ∉ number n :=
    fun n => not_mem_number (by rcases eq with rfl | rfl <;> decide)
  have entry : ∀ entry : Entry, c ∉ entry.toString := by
    intro entry
    unfold Entry.toString
    rcases eq with rfl | rfl <;> split_ifs <;> simp [rights, digits]
  have mask : c ∉ maskText acl.maskRights := by
    unfold maskText
    rcases eq with rfl | rfl <;> split_ifs <;> simp [rights]
  unfold toString
  rcases eq with rfl | rfl <;> simp [rights, mask, entry]

end AccessControlList

end LeilFS.Acl
