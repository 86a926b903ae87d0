/-
Module: LeilFS.Nodes.Paging
Purpose: Reading a directory page by page while its entries come and go.
Trusted boundary: none
-/
import LeilFS.Lib.SortedSeq
import LeilFS.Lib.StepSystem
import LeilFS.Nodes.Operations

namespace LeilFS.Nodes

open List

/-!
The entries of a directory stand in a skip list, in the order of the handles of their names.  A
handle is a word: the hash of the name in its upper 16 bits, and below it the address at which the
name is stored.  A page of the listing ends with the handle of the entry that comes next, without
its highest bit, and the next page starts at that entry
[SPEC filesystem_node_types.h:379-394, hstring_memstorage.cc:62-65].
-/

/-- An entry of a directory: the handle of its name, the name and the node. -/
structure Dirent where
  data : UInt64
  name : Name
  inode : InodeId
deriving Repr, DecidableEq

/-- `kSignBit64` -/
def kSignBit64 : UInt64 := 0x8000000000000000

/-- The index of an entry for clients. -/
def Dirent.index (entry : Dirent) : UInt64 := entry.data &&& ~~~kSignBit64

/-- Where the name is stored. -/
def Dirent.address (entry : Dirent) : UInt64 := entry.data &&& 0xFFFFFFFFFFFF

/-- Handles in their order, with names that are stored at addresses of their own. -/
structure Directory where
  id : InodeId
  parents : List InodeId
  entries : List Dirent
  ordered : entries.Pairwise (·.data < ·.data)
  stored : ∀ entry ∈ entries, entry.address ≠ 0
  apart : (entries.map Dirent.address).Nodup
  named : (entries.map Dirent.name).Nodup
  legal : ∀ entry ∈ entries, nameCheck entry.name = true

/-- A directory entry as clients get it [SPEC directory_entry.h:28-35]. -/
structure DirectoryEntry where
  index : UInt64
  nextIndex : UInt64
  inode : InodeId
  name : Name
deriving Repr, DecidableEq

/-- `kDotEntryIndex` -/
def kDotEntryIndex : UInt64 := 0

/-- `kDotDotEntryIndex` -/
def kDotDotEntryIndex : UInt64 := 0x1000000000000

/-- `kUnusedEntryIndex` -/
def kUnusedEntryIndex : UInt64 := 0x2000000000000

namespace Dirent

variable (entry : Dirent)

theorem index_toNat : entry.index.toNat = entry.data.toNat % 2 ^ 63 := by
  rw [index]
  exact Nat.and_two_pow_sub_one_eq_mod entry.data.toNat 63

theorem address_toNat : entry.address.toNat = entry.data.toNat % 2 ^ 48 := by
  rw [address]
  exact Nat.and_two_pow_sub_one_eq_mod entry.data.toNat 48

/-- A handle without the highest bit is its own index. -/
theorem index_of_lt (low : entry.data.toNat < 2 ^ 63) : entry.index = entry.data := by
  rw [← UInt64.toNat_inj, index_toNat, Nat.mod_eq_of_lt low]

/-- A handle with the highest bit is found from its index. -/
theorem index_or_sign (high : 2 ^ 63 ≤ entry.data.toNat) :
    entry.index ||| kSignBit64 = entry.data := by
  have bound := entry.data.toNat_lt
  have low : entry.data.toNat % 2 ^ 63 < 2 ^ 63 := Nat.mod_lt _ (by decide)
  rw [← UInt64.toNat_inj, UInt64.toNat_or, index_toNat, Nat.or_comm]
  refine (Nat.two_pow_add_eq_or_of_lt low 1).symm.trans ?_
  omega

theorem address_eq_of_data_eq_index {entry other : Dirent} (eq : other.data = entry.index) :
    other.address = entry.address := by
  have value := congrArg UInt64.toNat eq
  rw [index_toNat] at value
  rw [← UInt64.toNat_inj, address_toNat, address_toNat]
  omega

/-- No entry has one of the special indexes. -/
theorem index_ne {entry : Dirent} (stored : entry.address ≠ 0) {special : UInt64}
    (aligned : special.toNat % 2 ^ 48 = 0) : entry.index ≠ special := by
  intro eq
  have value := congrArg UInt64.toNat eq
  rw [index_toNat] at value
  refine stored (UInt64.toNat_inj.mp ?_)
  rw [address_toNat]
  show entry.data.toNat % 2 ^ 48 = 0
  omega

end Dirent

namespace Directory

/-- The index of the first of some entries, or the marker of the end. -/
def indexOfFirst (entries : List Dirent) : UInt64 :=
  (entries.head?.map Dirent.index).getD kUnusedEntryIndex

/-- The entries from an index on: an entry with this handle, or with this handle and the highest
bit [SPEC filesystem_node.cc:1460-1484]. -/
def fromIndex (entries : List Dirent) (firstEntry : UInt64) : List Dirent :=
  let found := entries.dropWhile (·.data < firstEntry)
  match found.head? with
  | none => []
  | some entry =>
      if entry.data = firstEntry then found
      else
        let found := entries.dropWhile (·.data < firstEntry ||| kSignBit64)
        if (found.head?.map Dirent.data) = some (firstEntry ||| kSignBit64) then found else []

/-- [SPEC filesystem_node.cc:1486-1500] -/
def collect : Nat → List Dirent → List DirectoryEntry
  | 0, _ => []
  | _, [] => []
  | n + 1, entry :: rest =>
      ⟨entry.index, indexOfFirst rest, entry.inode, entry.name⟩ :: collect n rest

/-- The node that `..` stands for. -/
def dotDotInode (dir : Directory) (rootINode : InodeId) : InodeId :=
  match dir.parents with
  | parent :: _ =>
      if dir.id = rootINode ∨ parent = rootINode then specialInodeRoot else parent
  | [] => specialInodeRoot

/-- The entry `.` and what is left of the request. -/
def dotPage (dir : Directory) (rootINode : InodeId) (firstEntry : UInt64) (number : Nat) :
    List DirectoryEntry × UInt64 × Nat :=
  if firstEntry = kDotEntryIndex ∧ 1 ≤ number then
    ([⟨kDotEntryIndex, kDotDotEntryIndex,
      if dir.id ≠ rootINode then dir.id else specialInodeRoot, [46]⟩],
      kDotDotEntryIndex, number - 1)
  else ([], firstEntry, number)

/-- The entry `..` and what is left of the request. -/
def dotDotPage (dir : Directory) (rootINode : InodeId) (firstEntry : UInt64) (number : Nat) :
    List DirectoryEntry × UInt64 × Nat :=
  if firstEntry = kDotDotEntryIndex ∧ 1 ≤ number then
    ([⟨kDotDotEntryIndex, indexOfFirst dir.entries, dir.dotDotInode rootINode, [46, 46]⟩],
      indexOfFirst dir.entries, number - 1)
  else ([], firstEntry, number)

/-- [SPEC filesystem_node.cc:1399-1501] -/
def getDir (dir : Directory) (rootINode : InodeId) (firstEntry : UInt64) (number : Nat) :
    List DirectoryEntry :=
  let (dot, firstEntry, number) := dir.dotPage rootINode firstEntry number
  let (dotDot, firstEntry, number) := dir.dotDotPage rootINode firstEntry number
  if number = 0 ∨ dir.entries = [] then dot ++ dotDot
  else dot ++ dotDot ++ collect number (fromIndex dir.entries firstEntry)

/-- An entry may come in: its name is legal and not in use, and so is the address. -/
def CanInsert (dir : Directory) (entry : Dirent) : Prop :=
  nameCheck entry.name = true ∧ entry.name ∉ dir.entries.map Dirent.name ∧ entry.address ≠ 0 ∧
    entry.address ∉ dir.entries.map Dirent.address

instance (dir : Directory) (entry : Dirent) : Decidable (dir.CanInsert entry) :=
  inferInstanceAs (Decidable (_ ∧ _))

/-- The entries with a new one in its place. -/
def withEntry (entries : List Dirent) (entry : Dirent) : List Dirent :=
  entries.takeWhile (·.data < entry.data) ++ entry :: entries.dropWhile (·.data < entry.data)

theorem withEntry_perm (entries : List Dirent) (entry : Dirent) :
    (withEntry entries entry).Perm (entry :: entries) := by
  refine perm_middle.trans ?_
  rw [takeWhile_append_dropWhile]

variable {entries : List Dirent}

theorem not_lt_of_mem_dropWhile (lt : entries.Pairwise (·.data < ·.data)) {place : UInt64}
    {entry : Dirent} (mem : entry ∈ entries.dropWhile (·.data < place)) : ¬ entry.data < place := by
  rw [← SortedSeq.drop_partitionPoint] at mem
  have after := SortedSeq.not_before_of_mem_drop
    (lt.imp fun less before => decide_eq_true (UInt64.lt_trans less (of_decide_eq_true before))) mem
  exact of_decide_eq_false after

theorem ordered_withEntry {entry : Dirent} (lt : entries.Pairwise (·.data < ·.data))
    (fresh : entry.address ∉ entries.map Dirent.address) :
    (withEntry entries entry).Pairwise (·.data < ·.data) := by
  have before : ∀ other ∈ entries.takeWhile (·.data < entry.data), other.data < entry.data := by
    intro other mem
    have less := mem_takeWhile_imp mem
    exact of_decide_eq_true less
  have after : ∀ other ∈ entries.dropWhile (·.data < entry.data), entry.data < other.data := by
    intro other mem
    have notBefore := not_lt_of_mem_dropWhile lt mem
    -- handles at different addresses differ
    have ne : other.data ≠ entry.data := by
      intro eq
      refine fresh (mem_map.mpr ⟨other, (dropWhile_sublist _).subset mem, ?_⟩)
      rw [Dirent.address, eq]
      rfl
    rw [UInt64.lt_iff_toNat_lt] at notBefore ⊢
    have apart : other.data.toNat ≠ entry.data.toNat := fun eq => ne (UInt64.toNat_inj.mp eq)
    omega
  refine pairwise_append.mpr ⟨lt.sublist (takeWhile_sublist _),
    pairwise_cons.mpr ⟨after, lt.sublist (dropWhile_sublist _)⟩, ?_⟩
  intro first inFront second behind
  rcases mem_cons.mp behind with rfl | later
  · exact before first inFront
  · exact UInt64.lt_trans (before first inFront) (after second later)

/-- A name is linked into the directory, at an address that is not in use. -/
def insert (dir : Directory) (entry : Dirent) : Directory :=
  if can : dir.CanInsert entry then
    { dir with
      entries := withEntry dir.entries entry
      ordered := ordered_withEntry dir.ordered can.2.2.2
      stored := fun other member => by
        rcases List.mem_cons.mp ((withEntry_perm dir.entries entry).mem_iff.mp member) with
          rfl | old
        · exact can.2.2.1
        · exact dir.stored other old
      apart := ((withEntry_perm dir.entries entry).map _).nodup_iff.mpr
        (List.nodup_cons.mpr ⟨can.2.2.2, dir.apart⟩)
      named := ((withEntry_perm dir.entries entry).map _).nodup_iff.mpr
        (List.nodup_cons.mpr ⟨can.2.1, dir.named⟩)
      legal := fun other member => by
        rcases List.mem_cons.mp ((withEntry_perm dir.entries entry).mem_iff.mp member) with
          rfl | old
        · exact can.1
        · exact dir.legal other old }
  else dir

/-- A name is removed. -/
def remove (dir : Directory) (name : Name) : Directory :=
  { dir with
    entries := dir.entries.filter (·.name ≠ name)
    ordered := dir.ordered.filter _
    stored := fun entry member => dir.stored entry (List.mem_of_mem_filter member)
    apart := dir.apart.sublist (List.filter_sublist.map _)
    named := dir.named.sublist (List.filter_sublist.map _)
    legal := fun entry member => dir.legal entry (List.mem_of_mem_filter member) }

/-! ## Pages -/

variable {dir : Directory} {entry : Dirent} {before rest : List Dirent}

theorem eq_of_address (mem : entry ∈ dir.entries) {other : Dirent}
    (mem' : other ∈ dir.entries) (eq : other.address = entry.address) : other = entry :=
  inj_on_of_nodup_map dir.apart mem' mem eq

theorem dropWhile_eq (split : dir.entries = before ++ entry :: rest) :
    dir.entries.dropWhile (·.data < entry.data) = entry :: rest := by
  have ordered := dir.ordered
  rw [split] at ordered ⊢
  have smaller := (pairwise_append.mp ordered).2.2
  rw [dropWhile_append_of_pos fun other mem =>
    decide_eq_true (smaller other mem entry mem_cons_self)]
  simp

/-- An index leads back to its entry, as long as that is there. -/
theorem fromIndex_eq (split : dir.entries = before ++ entry :: rest) :
    fromIndex dir.entries entry.index = entry :: rest := by
  have mem : entry ∈ dir.entries := split ▸ mem_append_right _ mem_cons_self
  unfold fromIndex
  dsimp only
  by_cases low : entry.data.toNat < 2 ^ 63
  · rw [entry.index_of_lt low, dropWhile_eq split]
    exact if_pos rfl
  have high : 2 ^ 63 ≤ entry.data.toNat := Nat.le_of_not_lt low
  have index := entry.index_toNat
  cases found : (dir.entries.dropWhile (·.data < entry.index)).head? with
  | none =>
    have all := dropWhile_eq_nil_iff.mp (head?_eq_none_iff.mp found) entry mem
    have less := UInt64.lt_iff_toNat_lt.mp (of_decide_eq_true all)
    omega
  | some other =>
    dsimp only
    -- an entry with the bare index as its handle would have the address of this one
    have apart : other.data ≠ entry.index := by
      intro eq
      have mem' := (dropWhile_sublist _).subset (mem_of_mem_head? found)
      rw [eq_of_address mem mem' (Dirent.address_eq_of_data_eq_index eq)] at eq
      have value := congrArg UInt64.toNat eq
      omega
    rw [if_neg apart, entry.index_or_sign high, dropWhile_eq split]
    exact if_pos rfl

theorem map_collect (n : Nat) (entries : List Dirent) :
    (collect n entries).map (fun record => (record.name, record.inode)) =
      (entries.take n).map fun entry => (entry.name, entry.inode) := by
  induction n generalizing entries with
  | zero => rfl
  | succ n ih =>
    cases entries with
    | nil => rfl
    | cons entry rest => simp only [collect, map_cons, take_succ_cons, ih]

theorem getLast?_collect (n : Nat) (some : entries ≠ []) :
    (collect (n + 1) entries).getLast?.map DirectoryEntry.nextIndex =
      Option.some (indexOfFirst (entries.drop (n + 1))) := by
  induction n generalizing entries with
  | zero =>
    obtain ⟨entry, rest, rfl⟩ := exists_cons_of_ne_nil some
    rfl
  | succ n ih =>
    obtain ⟨entry, rest, rfl⟩ := exists_cons_of_ne_nil some
    cases rest with
    | nil => rfl
    | cons next rest =>
      have later := ih (cons_ne_nil next rest)
      rw [collect, drop_succ_cons, ← later]
      rw [collect, getLast?_cons_cons]

/-- What a page of some entries ends with. -/
def lastIndex (page : List DirectoryEntry) : UInt64 :=
  (page.getLast?.map DirectoryEntry.nextIndex).getD kUnusedEntryIndex

theorem lastIndex_append_collect (extra : List DirectoryEntry) (n : Nat) (entries : List Dirent)
    (nothing : n = 0 ∨ entries = [] → lastIndex extra = indexOfFirst entries) :
    lastIndex (extra ++ collect n entries) = indexOfFirst (entries.drop n) := by
  by_cases none : n = 0 ∨ entries = []
  · have empty : collect n entries = [] := by
      rcases none with rfl | rfl
      · rfl
      · cases n <;> rfl
    have rest : entries.drop n = entries := by
      rcases none with rfl | rfl
      · rfl
      · exact drop_nil
    rw [empty, append_nil, rest, nothing none]
  · rw [not_or] at none
    obtain ⟨m, rfl⟩ := Nat.exists_eq_succ_of_ne_zero none.1
    obtain ⟨first, rest, rfl⟩ := exists_cons_of_ne_nil none.2
    have last := getLast?_collect m none.2
    have some : collect (m + 1) (first :: rest) ≠ [] := cons_ne_nil _ _
    unfold lastIndex
    rw [getLast?_append_of_ne_nil _ some, last]
    rfl

variable (rootINode : InodeId)

/-- A page from an entry on. -/
theorem getDir_entry (split : dir.entries = before ++ entry :: rest) (n : Nat) :
    dir.getDir rootINode entry.index n = collect n (entry :: rest) := by
  have mem : entry ∈ dir.entries := split ▸ mem_append_right _ mem_cons_self
  have notDot : entry.index ≠ kDotEntryIndex := Dirent.index_ne (dir.stored entry mem) rfl
  have notDotDot : entry.index ≠ kDotDotEntryIndex := Dirent.index_ne (dir.stored entry mem) rfl
  have dot : dir.dotPage rootINode entry.index n = ([], entry.index, n) :=
    if_neg fun both => notDot both.1
  have dotDot : dir.dotDotPage rootINode entry.index n = ([], entry.index, n) :=
    if_neg fun both => notDotDot both.1
  unfold getDir
  rw [dot]
  dsimp only
  rw [dotDot]
  split
  next none =>
    rcases none with rfl | none
    · rfl
    · rw [none] at mem
      exact absurd mem not_mem_nil
  · rw [fromIndex_eq split]
    rfl

/-- The record of `..`. -/
def dotDotEntry (dir : Directory) : DirectoryEntry :=
  ⟨kDotDotEntryIndex, indexOfFirst dir.entries, dir.dotDotInode rootINode, [46, 46]⟩

/-- A page that starts with `..`. -/
theorem getDir_dotDot (n : Nat) : dir.getDir rootINode kDotDotEntryIndex (n + 1) =
      dotDotEntry rootINode dir :: collect n dir.entries := by
  have dot : dir.dotPage rootINode kDotDotEntryIndex (n + 1) = ([], kDotDotEntryIndex, n + 1) :=
    if_neg fun both => absurd both.1 (by decide)
  have dotDot : dir.dotDotPage rootINode kDotDotEntryIndex (n + 1) =
      ([dotDotEntry rootINode dir], indexOfFirst dir.entries, n) :=
    if_pos ⟨rfl, Nat.le_add_left 1 n⟩
  unfold getDir
  rw [dot]
  dsimp only
  rw [dotDot]
  split
  next none =>
    rcases none with rfl | none
    · rfl
    · rw [none]
      cases n <;> rfl
  next some =>
    rw [not_or] at some
    obtain ⟨first, later, isEntries⟩ := exists_cons_of_ne_nil some.2
    have whole : dir.entries = [] ++ first :: later := isEntries
    have back := fromIndex_eq whole
    have index : indexOfFirst dir.entries = first.index := by rw [isEntries]; rfl
    rw [index, back, isEntries]
    rfl

/-- A page that starts with `.`. -/
theorem getDir_dot (dir : Directory) (n : Nat) :
    ∃ dot : DirectoryEntry, dot.name = [46] ∧ dot.nextIndex = kDotDotEntryIndex ∧
      dir.getDir rootINode kDotEntryIndex (n + 1) =
        dot :: if n = 0 then [] else dir.getDir rootINode kDotDotEntryIndex n := by
  refine ⟨⟨kDotEntryIndex, kDotDotEntryIndex,
    if dir.id ≠ rootINode then dir.id else specialInodeRoot, [46]⟩, rfl, rfl, ?_⟩
  cases n with
  | zero => rfl
  | succ n =>
    unfold getDir
    have first : dir.dotPage rootINode kDotEntryIndex (n + 1 + 1) =
        ([⟨kDotEntryIndex, kDotDotEntryIndex,
          if dir.id ≠ rootINode then dir.id else specialInodeRoot, [46]⟩],
          kDotDotEntryIndex, n + 1) := if_pos ⟨rfl, Nat.le_add_left 1 (n + 1)⟩
    have second : dir.dotPage rootINode kDotDotEntryIndex (n + 1) =
        ([], kDotDotEntryIndex, n + 1) := if_neg fun both => absurd both.1 (by decide)
    rw [first, second]
    dsimp only
    split <;> rfl

end Directory

/-! ## Listings -/

/-- A directory and a client that lists it: where it goes on, what it got, and whether it has
come to the end. -/
structure Listing where
  dir : Directory
  next : UInt64
  returned : List DirectoryEntry
  finished : Bool

/-- What happens while a directory is listed. -/
inductive PagingEvent where
  | read (number : Nat)
  | insert (entry : Dirent)
  | remove (name : Name)
deriving Repr, DecidableEq

namespace Listing

/-- A listing begins. -/
def start (dir : Directory) : Listing := ⟨dir, kDotEntryIndex, [], false⟩

/-- The next page; the listing ends with a page that is empty or names no next entry. -/
def read (rootINode : InodeId) (l : Listing) (number : Nat) : Listing :=
  let page := l.dir.getDir rootINode l.next number
  let next := Directory.lastIndex page
  { l with
    next := next
    returned := l.returned ++ page
    finished := next = kUnusedEntryIndex }

def step (rootINode : InodeId) (l : Listing) : PagingEvent → Listing
  | .read number => if l.finished then l else l.read rootINode number
  | .insert entry => { l with dir := l.dir.insert entry }
  | .remove name => { l with dir := l.dir.remove name }

/-- As long as the listing has not come to its end, pages have room for an entry, and the entry at
which the listing goes on is not removed. -/
def Resumable (l : Listing) : PagingEvent → Prop
  | .read number => l.finished = false → 1 ≤ number
  | .insert _ => True
  | .remove name =>
      l.finished = false → ∀ entry ∈ l.dir.entries, entry.name = name → entry.index ≠ l.next

instance decidableResumable (l : Listing) : (event : PagingEvent) → Decidable (l.Resumable event)
  | .read number => inferInstanceAs (Decidable (l.finished = false → 1 ≤ number))
  | .insert _ => inferInstanceAs (Decidable True)
  | .remove name =>
      inferInstanceAs (Decidable (l.finished = false → ∀ entry ∈ l.dir.entries,
        entry.name = name → entry.index ≠ l.next))

/-! ## What a listing has returned of an entry -/

/-- The nodes that were returned under the name of an entry. -/
def copies (returned : List DirectoryEntry) (entry : Dirent) : List InodeId :=
  (returned.filter (·.name = entry.name)).map DirectoryEntry.inode

/-- How far a listing has come with an entry. -/
inductive Progress (l : Listing) (entry : Dirent) : Prop
  | begins (place : l.next = kDotEntryIndex ∨ l.next = kDotDotEntryIndex)
      (unfinished : l.finished = false) (unseen : copies l.returned entry = [])
  | ahead (resume : Dirent) (there : resume ∈ l.dir.entries) (place : resume.index = l.next)
      (unfinished : l.finished = false) (before : resume.data ≤ entry.data)
      (unseen : copies l.returned entry = [])
  | passed (resume : Dirent) (there : resume ∈ l.dir.entries) (place : resume.index = l.next)
      (unfinished : l.finished = false) (after : entry.data < resume.data)
      (seen : copies l.returned entry = [entry.inode])
  | done (finished : l.finished = true) (seen : copies l.returned entry = [entry.inode])

variable {l : Listing} {entry : Dirent}

theorem copies_append (first second : List DirectoryEntry) :
    copies (first ++ second) entry = copies first entry ++ copies second entry := by
  unfold copies
  rw [filter_append, map_append]

variable {dir : Directory} {entries : List Dirent} {extra : List DirectoryEntry}

/-- A name stands for one entry. -/
theorem filter_name (dir : Directory) (mem : entry ∈ dir.entries)
    (part : entries.Sublist dir.entries) :
    entries.filter (·.name = entry.name) = if entry ∈ entries then [entry] else [] := by
  have only : ∀ other ∈ entries, other.name = entry.name → other = entry := fun other inside =>
    inj_on_of_nodup_map dir.named (part.subset inside) mem
  have nodup : entries.Nodup := (dir.named.sublist (part.map _)).of_map
  have eq : entries.filter (·.name = entry.name) = entries.filter (· = entry) :=
    filter_congr fun other inside => decide_eq_decide.mpr ⟨only other inside, congrArg _⟩
  rw [eq, List.filter_eq, nodup.count]
  split <;> rfl

/-- The copies of an entry in a page. -/
theorem copies_collect (dir : Directory) (mem : entry ∈ dir.entries)
    (part : entries.Sublist dir.entries) (n : Nat) : copies (Directory.collect n entries) entry =
      if entry ∈ entries.take n then [entry.inode] else [] := by
  have pairs : ∀ records : List DirectoryEntry, copies records entry =
      ((records.map fun record => (record.name, record.inode)).filter (·.1 = entry.name)).map
        Prod.snd := by
    intro records
    rw [filter_map, map_map]
    rfl
  rw [pairs, Directory.map_collect, filter_map, map_map]
  have found := filter_name dir mem ((take_sublist n entries).trans part)
  show ((entries.take n).filter (·.name = entry.name)).map Dirent.inode = _
  rw [found]
  split <;> rfl

theorem copies_of_special (legal : nameCheck entry.name = true)
    (special : ∀ record ∈ extra, nameCheck record.name = false) : copies extra entry = [] := by
  unfold copies
  rw [map_eq_nil_iff, filter_eq_nil_iff]
  intro record mem eq
  have illegal := special record mem
  rw [of_decide_eq_true eq, legal] at illegal
  cases illegal

/-- A page goes on from a place: what comes before it is known to be returned already, what
comes after it is not. -/
theorem progress_of_page (returned : List DirectoryEntry) {before entries : List Dirent}
    (split : dir.entries = before ++ entries) (n : Nat)
    (special : ∀ record ∈ extra, nameCheck record.name = false) (mem : entry ∈ dir.entries)
    (passed : entry ∈ before → copies returned entry = [entry.inode])
    (ahead : entry ∈ entries → copies returned entry = []) :
    Progress
      { dir := dir
        next := Directory.indexOfFirst (entries.drop n)
        returned := returned ++ (extra ++ Directory.collect n entries)
        finished := Directory.indexOfFirst (entries.drop n) = kUnusedEntryIndex } entry := by
  have part : entries.Sublist dir.entries := split ▸ sublist_append_right before entries
  have page : copies (returned ++ (extra ++ Directory.collect n entries)) entry =
      copies returned entry ++ if entry ∈ entries.take n then [entry.inode] else [] := by
    rw [copies_append, copies_append, copies_of_special (dir.legal entry mem) special,
      nil_append, copies_collect dir mem part]
  have ordered := dir.ordered
  rw [split, ← take_append_drop n entries] at ordered
  have place : entry ∈ before ∨ entry ∈ entries.take n ∨ entry ∈ entries.drop n := by
    rw [← mem_append, take_append_drop, ← mem_append, ← split]
    exact mem
  -- an entry is not on both sides of a place
  have apart : ∀ {front back : List Dirent}, (front ++ back).Pairwise (·.data < ·.data) →
      entry ∈ front → entry ∉ back := fun sorted inFront inBack =>
    UInt64.lt_irrefl _ ((pairwise_append.mp sorted).2.2 entry inFront entry inBack)
  have returnedNow : entry ∉ entries.drop n →
      copies (returned ++ (extra ++ Directory.collect n entries)) entry = [entry.inode] := by
    intro notBehind
    rw [page]
    rcases place with inFront | inPage | behind
    · have notInPage : entry ∉ entries.take n := fun inPage =>
        apart (split ▸ dir.ordered) inFront (mem_of_mem_take inPage)
      rw [passed inFront, if_neg notInPage]
      rfl
    · rw [ahead (mem_of_mem_take inPage), if_pos inPage]
      rfl
    · exact absurd behind notBehind
  cases rest : entries.drop n with
  | nil =>
    refine .done (show decide (kUnusedEntryIndex = kUnusedEntryIndex) = true from
      decide_eq_true rfl) (returnedNow ?_)
    rw [rest]
    exact not_mem_nil
  | cons resume later =>
    have there : resume ∈ dir.entries := by
      rw [split]
      exact mem_append_right _ (mem_of_mem_drop (rest ▸ mem_cons_self))
    have unfinished : decide (resume.index = kUnusedEntryIndex) = false :=
      decide_eq_false (Dirent.index_ne (dir.stored resume there) rfl)
    by_cases behind : entry ∈ entries.drop n
    · have notInPage : entry ∉ entries.take n := fun inPage =>
        apart (pairwise_append.mp ordered).2.1 inPage behind
      refine .ahead resume there rfl unfinished ?_ ?_
      · rw [rest] at behind ordered
        rcases mem_cons.mp behind with rfl | afterwards
        · exact UInt64.le_refl _
        · have tail := (pairwise_append.mp (pairwise_append.mp ordered).2.1).2.1
          exact UInt64.le_of_lt ((pairwise_cons.mp tail).1 entry afterwards)
      · rw [page, ahead (mem_of_mem_drop behind), if_neg notInPage]
        rfl
    · refine .passed resume there rfl unfinished ?_ (returnedNow behind)
      rw [rest] at ordered
      have inFront : entry ∈ before ++ entries.take n := by
        rw [mem_append]
        exact or_assoc.mpr place |>.resolve_right behind
      rw [← append_assoc] at ordered
      exact (pairwise_append.mp ordered).2.2 entry inFront resume mem_cons_self

variable (rootINode : InodeId)

/-- The next page of a listing that is not at its end. -/
theorem Progress.read (h : Progress l entry) (unfinished : l.finished = false)
    (mem : entry ∈ l.dir.entries) {number : Nat} (le : 1 ≤ number) :
    Progress (l.read rootINode number) entry := by
  obtain ⟨n, rfl⟩ := Nat.exists_eq_add_of_le' le
  -- from an entry on, with what is returned before and behind it
  have resumed : ∀ resume ∈ l.dir.entries, resume.index = l.next →
      (entry.data < resume.data → copies l.returned entry = [entry.inode]) →
      (resume.data ≤ entry.data → copies l.returned entry = []) →
      Progress (l.read rootINode (n + 1)) entry := by
    intro resume there place passed ahead
    obtain ⟨front, later, split⟩ := append_of_mem there
    have ordered := l.dir.ordered
    rw [split] at ordered
    have after := progress_of_page l.returned split (n + 1)
      (fun _ (none : _ ∈ []) => absurd none not_mem_nil) mem
      (fun inFront => passed ((pairwise_append.mp ordered).2.2 entry inFront resume mem_cons_self))
      (fun behind => ahead (by
        rcases mem_cons.mp behind with rfl | afterwards
        · exact UInt64.le_refl _
        · exact UInt64.le_of_lt ((pairwise_cons.mp
            (pairwise_append.mp ordered).2.1).1 entry afterwards)))
    have last := Directory.lastIndex_append_collect [] (n + 1) (resume :: later)
      (fun none => absurd none (by simp))
    rw [nil_append] at last
    unfold Listing.read
    rw [← place, Directory.getDir_entry rootINode split]
    dsimp only
    rw [last]
    exact after
  cases h with
  | begins place _ unseen =>
    -- all entries are still to come
    have whole : ∀ (extra : List DirectoryEntry) (m : Nat),
        (∀ record ∈ extra, nameCheck record.name = false) →
        Directory.lastIndex extra = Directory.indexOfFirst l.dir.entries →
        l.dir.getDir rootINode l.next (n + 1) = extra ++ Directory.collect m l.dir.entries →
        Progress (l.read rootINode (n + 1)) entry := by
      intro extra m special last page
      have all : l.dir.entries = [] ++ l.dir.entries := rfl
      have after := progress_of_page l.returned all m special mem
        (fun inFront => absurd inFront not_mem_nil) fun _ => unseen
      unfold Listing.read
      rw [page]
      dsimp only
      rw [Directory.lastIndex_append_collect extra m l.dir.entries fun _ => last]
      exact after
    have dotDotSpecial : nameCheck (Directory.dotDotEntry rootINode l.dir).name = false := rfl
    rcases place with isDot | isDotDot
    · obtain ⟨dot, name, index, page⟩ := Directory.getDir_dot rootINode l.dir n
      have dotSpecial : nameCheck dot.name = false := by rw [name]; rfl
      cases n with
      | zero =>
        unfold Listing.read
        rw [isDot, page]
        refine .begins (.inr index) ?_ ?_
        · show decide (dot.nextIndex = kUnusedEntryIndex) = false
          rw [index]
          rfl
        · have quiet : copies [dot] entry = [] :=
            copies_of_special (l.dir.legal entry mem) (by simpa using dotSpecial)
          exact (copies_append _ _).trans (by rw [unseen]; exact quiet)
      | succ m =>
        rw [Directory.getDir_dotDot] at page
        exact whole [dot, Directory.dotDotEntry rootINode l.dir] m
          (by simpa using ⟨dotSpecial, dotDotSpecial⟩) rfl (by rw [isDot, page]; rfl)
    · exact whole [Directory.dotDotEntry rootINode l.dir] n (by simpa using dotDotSpecial) rfl
        (by rw [isDotDot, Directory.getDir_dotDot]; rfl)
  | ahead resume there place _ before unseen =>
    exact resumed resume there place
      (fun after => absurd before (UInt64.not_le.mpr after)) fun _ => unseen
  | passed resume there place _ after seen =>
    exact resumed resume there place (fun _ => seen)
      fun before => absurd before (UInt64.not_le.mpr after)
  | done finished _ => rw [unfinished] at finished; cases finished

/-- A change of the directory that leaves the place of the listing alone. -/
theorem Progress.of_kept (h : Progress l entry) (kept : l.finished = false →
      ∀ resume ∈ l.dir.entries, resume.index = l.next → resume ∈ dir.entries) :
    Progress { l with dir := dir } entry := by
  cases h with
  | begins place unfinished unseen => exact .begins place unfinished unseen
  | ahead resume there place unfinished before unseen =>
    exact .ahead resume (kept unfinished resume there place) place unfinished before unseen
  | passed resume there place unfinished after seen =>
    exact .passed resume (kept unfinished resume there place) place unfinished after seen
  | done finished seen => exact .done finished seen

theorem mem_insert {new : Dirent} (mem : entry ∈ dir.entries) :
    entry ∈ (dir.insert new).entries := by
  unfold Directory.insert
  split
  · exact (Directory.withEntry_perm dir.entries new).mem_iff.mpr (mem_cons_of_mem _ mem)
  · exact mem

theorem Progress.step (h : Progress l entry) (mem : entry ∈ l.dir.entries)
    {event : PagingEvent} (ok : l.Resumable event) : Progress (l.step rootINode event) entry := by
  cases event with
  | read number =>
    rw [Listing.step]
    cases done : l.finished with
    | true => exact h
    | false => exact h.read rootINode done mem (ok done)
  | insert new => exact h.of_kept fun _ resume there _ => mem_insert there
  | remove name =>
    refine h.of_kept fun unfinished resume there place => mem_filter.mpr ⟨there, ?_⟩
    exact decide_eq_true fun eq => ok unfinished resume there eq place

/-- When a listing has come to its end, every entry that was there all the time has been returned
once, provided that no entry was removed while the listing was to go on at it. -/
theorem pages_return_each_entry_once (rootINode : InodeId) (dir : Directory)
    (events : List PagingEvent) (entry : Dirent)
    (along : StepSystem.Along (step rootINode) Resumable (start dir) events)
    (stays : StepSystem.Along (step rootINode) (fun l _ => entry ∈ l.dir.entries) (start dir)
      events)
    (finished : (StepSystem.run (step rootINode) (start dir) events).finished = true) :
    copies (StepSystem.run (step rootINode) (start dir) events).returned entry = [entry.inode] := by
  have progress : Progress (StepSystem.run (step rootINode) (start dir) events) entry :=
    StepSystem.invariant_run (P := fun l => Progress l entry)
      (fun _ _ progress ok => Progress.step rootINode progress ok.2 ok.1)
      (.begins (.inl rfl) rfl rfl) (along.and stays)
  cases progress with
  | begins _ unfinished _ => rw [finished] at unfinished; cases unfinished
  | ahead _ _ _ unfinished _ _ => rw [finished] at unfinished; cases unfinished
  | passed _ _ _ unfinished _ _ => rw [finished] at unfinished; cases unfinished
  | done _ seen => exact seen

/-- A directory with the entries `a`, `b` and `c`. -/
def threeLetters : Directory where
  id := 2
  parents := [1]
  entries := [⟨0x5000000000010, [97], 10⟩, ⟨0x7000000000020, [98], 11⟩,
    ⟨0x9000000000000030, [99], 12⟩]
  ordered := by decide
  stored := by decide
  apart := by decide
  named := by decide
  legal := by decide

/-- Between two pages `a` is removed and `d` comes in. -/
theorem pages_return_each_entry_once_threeLetters : let events : List PagingEvent :=
      [.read 3, .insert ⟨0x6000000000040, [100], 13⟩, .remove [97], .read 10]
    copies (StepSystem.run (step 1) (start threeLetters) events).returned
      ⟨0x9000000000000030, [99], 12⟩ = [12] :=
  pages_return_each_entry_once 1 threeLetters
    [.read 3, .insert ⟨0x6000000000040, [100], 13⟩, .remove [97], .read 10]
    ⟨0x9000000000000030, [99], 12⟩ (by decide) (by decide) (by decide)

/-- The first page ends before `b`.  When `b` is removed, the next page is empty and the listing
ends without `c`. -/
theorem listing_ends_at_removed_entry :
    let events : List PagingEvent := [.read 3, .remove [98], .read 10]
    let entry : Dirent := ⟨0x9000000000000030, [99], 12⟩
    StepSystem.Along (step 1) (fun l _ => entry ∈ l.dir.entries) (start threeLetters) events ∧
      (StepSystem.run (step 1) (start threeLetters) events).finished = true ∧
      copies (StepSystem.run (step 1) (start threeLetters) events).returned entry = [] := by
  decide

end Listing

end LeilFS.Nodes
