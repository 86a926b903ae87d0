/-
Module: LeilFS.Locks.Persistence
Purpose: Storing a lock table in the metadata file and loading it again.
Trusted boundary: none
-/
import LeilFS.Locks.Replay

namespace LeilFS.Locks

open StepSystem LockTables List LockRanges

/-!
The metadata file has a section for the active and one for the waiting locks of a
table.  A section is a count and then one record for each owner of each lock, inode
by inode in the order in which the hash map lists them.  Loading inserts the active
locks one owner at a time, without a check that they fit, and appends the waiting
ones to their queue.

The file is a sequence of items; the bytes of an item are not modelled.

[SPEC locks.cc:367-450]
[SPEC lock_info.h:40-48]
-/

/-- The type codes of the protocol. -/
def LockType.code : LockType → Nat
  | .invalid => 0
  | .unlock => 1
  | .shared => 2
  | .exclusive => 4

/-- The type of a code; codes that are never written count as invalid. -/
def LockType.ofCode : Nat → LockType
  | 1 => .unlock
  | 2 => .shared
  | 4 => .exclusive
  | _ => .invalid

@[simp] theorem LockType.ofCode_code (type : LockType) : LockType.ofCode type.code = type := by
  cases type <;> rfl

/-- The record of one owner of a lock. -/
structure Info where
  version : Nat
  inode : Nat
  owner : Nat
  sessionid : Nat
  type : Nat
  start : Nat
  stop : Nat
deriving Repr, DecidableEq

/-- What the metadata file holds. -/
inductive StoredItem where
  | count (n : Nat)
  | record (info : Info)
deriving Repr, DecidableEq

namespace Info

/-- The record that is written for an owner. -/
def ofOwner (inode : Nat) (lock : LockRange) (owner : Owner) : Info :=
  { version := 0, inode := inode, owner := owner.owner, sessionid := owner.sessionid,
    type := lock.type.code, start := lock.start, stop := lock.stop }

/-- The lock that is built from a record. -/
def lock (info : Info) : LockRange :=
  .single (LockType.ofCode info.type) info.start info.stop
    { owner := info.owner, sessionid := info.sessionid, reqid := 0, msgid := 0 }

@[simp] theorem lock_ofOwner (inode : Nat) (range : LockRange) (owner : Owner) :
    (ofOwner inode range owner).lock = .single range.type range.start range.stop owner.forget := by
  simp [lock, ofOwner, Owner.forget]

end Info

namespace FileLocks

/-- The records of the locks of one inode. -/
def inodeRecords (data : Nat → List LockRange) (inode : Nat) : List Info :=
  (data inode).flatMap fun lock => lock.owners.map (Info.ofOwner inode lock)

/-- The number of owners, counted before anything is written. -/
def storedCount (inodes : List Nat) (data : Nat → List LockRange) : Nat :=
  (inodes.map fun inode => ((data inode).map fun lock => lock.owners.length).sum).sum

/-- Write one section; `inodes` lists the keys of the map. -/
def storeSection (inodes : List Nat) (data : Nat → List LockRange) : List StoredItem :=
  .count (storedCount inodes data) ::
    (inodes.flatMap (inodeRecords data)).map StoredItem.record

/-- Read the given number of records. -/
def loadRecords {σ : Type} (insert : σ → Nat → LockRange → σ) :
    Nat → σ → List StoredItem → Option (σ × List StoredItem)
  | 0, s, items => some (s, items)
  | n + 1, s, .record info :: items =>
      loadRecords insert n (insert s info.inode info.lock) items
  | _ + 1, _, _ => none

/-- Read one section. -/
def loadSection {σ : Type} (insert : σ → Nat → LockRange → σ) (s : σ) :
    List StoredItem → Option (σ × List StoredItem)
  | .count n :: items => loadRecords insert n s items
  | _ => none

/-- Put a stored lock among the active ones. -/
def insertActive (t : Nat → InodeLocks) (inode : Nat) (lock : LockRange) : Nat → InodeLocks :=
  Function.update t inode
    { t inode with active := (t inode).active.insert lock }

/-- Put a stored lock at the end of the queue. -/
def pushPending (t : Nat → InodeLocks) (inode : Nat) (lock : LockRange) : Nat → InodeLocks :=
  Function.update t inode { t inode with pending := (t inode).pending ++ [lock] }

/-- Save a table.  The two maps list their keys in orders of their own. -/
def store (activeInodes pendingInodes : List Nat) (t : Nat → InodeLocks) : List StoredItem :=
  storeSection activeInodes (fun inode => (t inode).active.data) ++
    storeSection pendingInodes (fun inode => (t inode).pending)

/-- Load a table, with what is left of the file. -/
def load (t : Nat → InodeLocks) (items : List StoredItem) :
    Option ((Nat → InodeLocks) × List StoredItem) := do
  let (t, items) ← loadSection insertActive t items
  loadSection pushPending t items

/-- The list has every inode with locks, once. -/
structure Lists (inodes : List Nat) (data : Nat → List LockRange) : Prop where
  distinct : inodes.Nodup
  complete : ∀ inode, data inode ≠ [] → inode ∈ inodes

/-!
Loading a section executes an insertion for each record, and an inode sees its own
records in the order in which they were written.
-/

theorem length_inodeRecords (data : Nat → List LockRange) (inode : Nat) :
    (inodeRecords data inode).length = ((data inode).map fun lock => lock.owners.length).sum := by
  simp [inodeRecords]

theorem storedCount_eq (inodes : List Nat) (data : Nat → List LockRange) :
    storedCount inodes data = (inodes.flatMap (inodeRecords data)).length := by
  simp only [storedCount, length_flatMap, length_inodeRecords]

theorem loadRecords_append {σ : Type} (insert : σ → Nat → LockRange → σ)
    (records : List Info) (s : σ) (rest : List StoredItem) :
    loadRecords insert records.length s (records.map StoredItem.record ++ rest) =
      some (run (fun s info => insert s info.inode info.lock) s records, rest) := by
  induction records generalizing s with
  | nil => rfl
  | cons info records ih => exact ih (insert s info.inode info.lock)

theorem loadSection_storeSection {σ : Type} (insert : σ → Nat → LockRange → σ)
    (inodes : List Nat) (data : Nat → List LockRange) (s : σ) (rest : List StoredItem) :
    loadSection insert s (storeSection inodes data ++ rest) =
      some (run (fun s info => insert s info.inode info.lock) s
        (inodes.flatMap (inodeRecords data)), rest) := by
  rw [storeSection, cons_append, loadSection, storedCount_eq, loadRecords_append]

variable {data : Nat → List LockRange}

theorem inode_of_mem_inodeRecords (inode : Nat) :
    ∀ info ∈ inodeRecords data inode, info.inode = inode := by
  intro info mem
  simp only [inodeRecords, mem_flatMap, mem_map] at mem
  obtain ⟨lock, -, owner, -, rfl⟩ := mem
  rfl

theorem ne_nil_of_inodeRecords {inode : Nat}
    (records : inodeRecords data inode ≠ []) : data inode ≠ [] := by
  intro nothing
  simp [inodeRecords, nothing] at records

/-- What loading a section leaves in the entry of an inode. -/
theorem run_inode {inodes : List Nat} (h : Lists inodes data)
    (step : InodeLocks → Info → InodeLocks) (t : Nat → InodeLocks) (inode : Nat) : run
        (fun t info => Function.update t info.inode (step (t info.inode) info)) t
        (inodes.flatMap (inodeRecords data)) inode =
      run step (t inode) (inodeRecords data inode) := by
  rw [run_component, filter_flatMap_key inode_of_mem_inodeRecords h.distinct
    fun records => h.complete inode (ne_nil_of_inodeRecords records)]

end FileLocks

/-!
Inserting the owners of a sound table one by one into an empty table, whatever is
merged and split on the way, never asks for something that another owner already
has: what has been inserted so far holds no more than the table itself.
-/

/-- The range is what one owner has in a lock of the table. -/
def LockRange.PieceOf (range : LockRange) (locks : LockRanges) : Prop :=
  ∃ lock ∈ locks.data, ∃ o ∈ lock.keys,
    range.type = lock.type ∧ range.start = lock.start ∧ range.stop = lock.stop ∧
      range.keys = [o]

namespace LockRanges

variable {locks loaded : LockRanges} {range : LockRange}

theorem Sound.piece_request (h : locks.Sound) (piece : range.PieceOf locks) :
    range.Request range.requester := by
  obtain ⟨lock, mem, o, -, type, start, stop, owner⟩ := piece
  have lockSound := h.ranges lock mem
  have req : range.Request o := by
    refine ⟨by rw [start, stop]; exact lockSound.nonempty, owner, ?_⟩
    rcases lockSound.locking with shared | exclusive
    · simp [type, shared]
    · simp [type, exclusive]
  rw [req.requester_eq]
  exact req

/-- A piece is held in the table it comes from. -/
theorem Sound.heldMode_piece (h : locks.Sound) (piece : range.PieceOf locks)
    {x : Nat} (low : range.start ≤ x) (high : x < range.stop) :
    locks.heldMode x range.requester = range.type.mode := by
  have requester := (h.piece_request piece).owner
  obtain ⟨lock, mem, o, owner, type, start, stop, key⟩ := piece
  obtain rfl : o = range.requester := by simpa [key] using requester
  rw [type]
  exact h.heldMode_of_gives ⟨lock, mem, start ▸ low, stop ▸ high, owner, rfl⟩

/-- The table a piece comes from does not block it. -/
theorem Sound.not_blocks_piece (h : locks.Sound) (piece : range.PieceOf locks) :
    ¬ locks.heldMode.Blocks range := by
  rintro ⟨x, o, low, high, other, mode⟩
  have requester := (h.piece_request piece).owner
  obtain ⟨lock, mem, k, owner, type, start, stop, key⟩ := piece
  obtain rfl : k = range.requester := by simpa [key] using requester
  have held : locks.heldMode x o ≠ .none := by
    rcases mode with exclusive | ⟨-, held⟩
    · rw [exclusive]
      decide
    · exact held
  obtain ⟨found, foundMember, gives, modeAt⟩ := exists_of_heldMode_ne_none held
  -- Two locks with a common offset are the same lock.
  have same : found = lock := by
    have own : lock.Gives x range.requester lock.type := ⟨start ▸ low, stop ▸ high, owner, rfl⟩
    exact h.eq_of_common_offset foundMember mem gives.1 gives.2.1 own.1 own.2.1
  subst same
  have exclusive : found.type = .exclusive := by
    rcases mode with exclusive | ⟨exclusive, -⟩
    · rcases (h.ranges found mem).locking with shared | exclusive
      · simp [modeAt, shared, LockType.mode] at exclusive
      · exact exclusive
    · rw [← type]
      exact exclusive
  obtain ⟨single, keys⟩ := (h.ranges found mem).exclusive_keys exclusive
  have first : o = single := by simpa [keys] using gives.2.2.1
  have second : range.requester = single := by simpa [keys] using owner
  exact other (first.trans second.symm)

theorem Sound.piece_locking (h : locks.Sound) (piece : range.PieceOf locks) :
    range.type ≠ .unlock := by
  obtain ⟨lock, mem, o, -, type, -⟩ := piece
  rcases (h.ranges lock mem).locking with shared | exclusive
  · simp [type, shared]
  · simp [type, exclusive]

/-- A piece fits a table that holds no more than the one it comes from. -/
theorem Sound.fits_piece (h : locks.Sound) (loadedSound : loaded.Sound)
    (le : ∀ x o, loaded.heldMode x o ≤ locks.heldMode x o)
    (piece : range.PieceOf locks) : loaded.fits range = true := by
  by_contra misfit
  rw [Bool.not_eq_true, loadedSound.fits_eq_false_iff (h.piece_request piece)
    (h.piece_locking piece)] at misfit
  exact h.not_blocks_piece piece (misfit.mono le)

/-- What has been loaded after some pieces: nothing outside the table, and all of
these pieces. -/
structure Partial (locks loaded : LockRanges) (done : List LockRange) : Prop where
  sound : loaded.Sound
  within : ∀ x o, loaded.heldMode x o = locks.heldMode x o ∨
    loaded.heldMode x o = .none
  covered : ∀ range ∈ done, ∀ x, range.start ≤ x → x < range.stop →
    loaded.heldMode x range.requester = locks.heldMode x range.requester

theorem Partial.le {done : List LockRange} (loading : Partial locks loaded done)
    (x : Nat) (o : OwnerKey) : loaded.heldMode x o ≤ locks.heldMode x o := by
  rcases loading.within x o with same | none
  · exact le_of_eq same
  · rw [none]
    exact Mode.none_le _

/-- One more piece. -/
theorem Partial.insert {done : List LockRange} (h : locks.Sound)
    (loading : Partial locks loaded done) (piece : range.PieceOf locks) :
    Partial locks (loaded.insert range) (done ++ [range]) := by
  have req := h.piece_request piece
  have fits := h.fits_piece loading.sound loading.le piece
  have assigned : ∀ x o, (loaded.insert range).heldMode x o =
      if range.start ≤ x ∧ x < range.stop ∧ o = range.requester
        then locks.heldMode x o else loaded.heldMode x o := by
    intro x o
    rw [loading.sound.heldMode_insert req fits, HeldMap.assign]
    split
    next inside =>
      obtain ⟨low, high, rfl⟩ := inside
      exact (h.heldMode_piece piece low high).symm
    · rfl
  refine ⟨(loading.sound.insert_spec req fits).1, ?_, ?_⟩
  · intro x o
    rw [assigned]
    split
    · exact .inl rfl
    · exact loading.within x o
  · intro other mem x low high
    rw [assigned]
    split
    · rfl
    next outside =>
      rcases mem_append.mp mem with old | last
      · exact loading.covered other old x low high
      · rw [mem_singleton] at last
        subst last
        exact absurd ⟨low, high, rfl⟩ outside

theorem Partial.foldl {done pieces : List LockRange} (h : locks.Sound)
    (loading : Partial locks loaded done) (fromTable : ∀ range ∈ pieces, range.PieceOf locks) :
    Partial locks (pieces.foldl LockRanges.insert loaded) (done ++ pieces) := by
  induction pieces generalizing loaded done with
  | nil => simpa using loading
  | cons range pieces ih =>
    have next := loading.insert h (fromTable range (by simp))
    have rest := ih next fun other mem => fromTable other (by simp [mem])
    simpa using rest

/-- Inserting all pieces of a table into an empty one gives the held map of the
table. -/
theorem Sound.heldMode_reinsert (h : locks.Sound) {pieces : List LockRange}
    (fromTable : ∀ range ∈ pieces, range.PieceOf locks)
    (all : ∀ lock ∈ locks.data, ∀ o ∈ lock.keys, ∃ range ∈ pieces,
      range.start = lock.start ∧ range.stop = lock.stop ∧ range.requester = o) :
    (pieces.foldl LockRanges.insert LockRanges.empty).heldMode = locks.heldMode := by
  have initial : Partial locks LockRanges.empty [] :=
    ⟨Sound.empty, fun _ _ => .inr rfl, fun _ mem => absurd mem not_mem_nil⟩
  have loaded := initial.foldl h fromTable
  funext x o
  by_cases held : locks.heldMode x o = .none
  · rcases loaded.within x o with same | none
    · exact same
    · rw [none, held]
  · obtain ⟨lock, mem, gives, -⟩ := exists_of_heldMode_ne_none held
    obtain ⟨range, piece, start, stop, rfl⟩ := all lock mem o gives.2.2.1
    exact loaded.covered range (by simpa using piece) x (start ▸ gives.1) (stop ▸ gives.2.1)

end LockRanges

namespace FileLocks

/-- The locks that are built from the records of an inode. -/
theorem map_lock_inodeRecords (data : Nat → List LockRange) (inode : Nat) :
    (inodeRecords data inode).map Info.lock =
      (data inode).flatMap fun lock => lock.owners.map fun owner =>
        .single lock.type lock.start lock.stop owner.forget := by
  simp [inodeRecords, map_flatMap, Function.comp_def]

theorem run_insertActive (s : InodeLocks) (records : List Info) :
    run (fun s info => { s with active := s.active.insert info.lock }) s records =
      { s with active := (records.map Info.lock).foldl insert s.active } := by
  induction records generalizing s with
  | nil => rfl
  | cons info records ih => rw [run_cons, ih]; rfl

theorem run_pushPending (s : InodeLocks) (records : List Info) :
    run (fun s info => { s with pending := s.pending ++ [info.lock] }) s records =
      { s with pending := s.pending ++ records.map Info.lock } := by
  induction records generalizing s with
  | nil => simp
  | cons info records ih => rw [run_cons, ih]; simp

/-- The held map of a sound table comes back. -/
theorem heldMode_inodeRecords (data : Nat → List LockRange) {inode : Nat}
    (sound : (mk (data inode)).Sound) : (((inodeRecords data inode).map Info.lock).foldl insert
        empty).heldMode = (mk (data inode)).heldMode := by
  rw [map_lock_inodeRecords]
  apply sound.heldMode_reinsert
  · intro range mem
    simp only [mem_flatMap, mem_map] at mem
    obtain ⟨lock, inTable, owner, inLock, rfl⟩ := mem
    exact ⟨lock, inTable, owner.key, mem_map_of_mem inLock, rfl, rfl, rfl, rfl⟩
  · intro lock inTable o inLock
    obtain ⟨owner, inOwners, rfl⟩ := mem_map.mp inLock
    refine ⟨.single lock.type lock.start lock.stop owner.forget, ?_, rfl, rfl, rfl⟩
    simp only [mem_flatMap, mem_map]
    exact ⟨lock, inTable, owner, inOwners, rfl⟩

/-- A queue of single-owner requests comes back, in its order. -/
theorem pending_inodeRecords {data : Nat → List LockRange} {inode limit : Nat}
    (waiting : ∀ q ∈ data inode, q.Waiting limit) : (inodeRecords data inode).map Info.lock =
      (data inode).map (LockRange.mapOwners Owner.forget) := by
  rw [map_lock_inodeRecords, map_eq_flatMap]
  apply flatMap_congr
  intro q mem
  have owner := (waiting q mem).request.owner
  rw [LockRange.keys, map_eq_singleton_iff] at owner
  obtain ⟨o, owners, -⟩ := owner
  simp [owners, LockRange.mapOwners, LockRange.single]

/-- Loading what was stored executes the insertions of both sections. -/
theorem load_store_eq (t empty : Nat → InodeLocks) (activeInodes pendingInodes : List Nat) :
    load empty (store activeInodes pendingInodes t) =
      some (run (fun t info => pushPending t info.inode info.lock)
        (run (fun t info => insertActive t info.inode info.lock) empty
          (activeInodes.flatMap (inodeRecords fun inode => (t inode).active.data)))
        (pendingInodes.flatMap (inodeRecords fun inode => (t inode).pending)), []) := by
  rw [load, store, loadSection_storeSection, Option.bind_eq_bind]
  simpa using loadSection_storeSection pushPending pendingInodes
    (fun inode => (t inode).pending) _ []

/-- Storing a valid table and loading it gives the held maps and the queues. -/
theorem exists_load_store {limit : Nat} {t : Nat → InodeLocks}
    (valid : ∀ inode, (t inode).Valid limit) {activeInodes pendingInodes : List Nat}
    (activeLists : Lists activeInodes fun inode => (t inode).active.data)
    (pendingLists : Lists pendingInodes fun inode => (t inode).pending) :
    ∃ loaded, load (fun _ => InodeLocks.empty) (store activeInodes pendingInodes t) =
        some (loaded, []) ∧ ∀ inode, (loaded inode).held = (t inode).held ∧
        (loaded inode).pending = (t inode).pending.map (LockRange.mapOwners Owner.forget) := by
  refine ⟨_, load_store_eq t _ activeInodes pendingInodes, fun inode => ?_⟩
  unfold insertActive pushPending
  rw [run_inode pendingLists (fun s info => { s with pending := s.pending ++ [info.lock] }),
    run_inode activeLists (fun s info => { s with active := s.active.insert info.lock }),
    run_insertActive, run_pushPending]
  constructor
  · exact heldMode_inodeRecords (fun inode => (t inode).active.data) (valid inode).active
  · simpa [InodeLocks.empty] using pending_inodeRecords (valid inode).waiting

end FileLocks

namespace LockTables

/-- Storing a table that lock operations have made and loading it into an empty one
gives, for every inode, the same held map and the same queue.  Request and message
ids are not stored. -/
theorem load_store (events : List LockEvent) (kind : LockKind)
    {activeInodes pendingInodes : List Nat}
    (activeLists : FileLocks.Lists activeInodes fun inode =>
      ((run step empty events).table kind inode).active.data)
    (pendingLists : FileLocks.Lists pendingInodes fun inode =>
      ((run step empty events).table kind inode).pending) :
    ∃ loaded,
      FileLocks.load (fun _ => InodeLocks.empty)
          (FileLocks.store activeInodes pendingInodes
            ((run step empty events).table kind)) =
        some (loaded, []) ∧
      ∀ inode,
        (loaded inode).held =
            ((run step empty events).table kind inode).held ∧
          (loaded inode).pending =
            ((run step empty events).table kind
              inode).pending.map (LockRange.mapOwners Owner.forget) :=
  FileLocks.exists_load_store (valid_run events kind) activeLists pendingLists

/-!
The keys of the maps are among the inodes that some event has named, so a list of
them exists for every run.
-/

/-- The inode whose entry an event changes. -/
def touchedInode (event : LockEvent) : Option Nat :=
  event.target.map fun target => target.2.1

/-- The inodes whose entries a run may have changed. -/
def touchedInodes (events : List LockEvent) : List Nat :=
  (events.filterMap touchedInode).dedup

theorem step_elsewhere (tables : LockTables) {event : LockEvent} {inode : Nat}
    (elsewhere : touchedInode event ≠ some inode) (kind : LockKind) :
    (tables.step event).table kind inode = tables.table kind inode := by
  unfold step
  split
  · rfl
  next other node op target =>
    rw [table_set, if_neg]
    rintro ⟨-, rfl⟩
    exact elsewhere (by simp [touchedInode, target])

theorem run_elsewhere {events : List LockEvent} {inode : Nat} (tables : LockTables)
    (elsewhere : ∀ event ∈ events, touchedInode event ≠ some inode) (kind : LockKind) :
    (run step tables events).table kind inode = tables.table kind inode := by
  induction events generalizing tables with
  | nil => rfl
  | cons event events ih =>
    rw [run_cons, ih _ fun other mem => elsewhere other (by simp [mem]),
      step_elsewhere tables (elsewhere event (by simp))]

theorem lists_touchedInodes (events : List LockEvent) (kind : LockKind)
    (data : InodeLocks → List LockRange) (nothing : data InodeLocks.empty = []) :
    FileLocks.Lists (touchedInodes events) fun inode =>
      data ((run step empty events).table kind inode) := by
  refine ⟨nodup_dedup _, fun inode locks => ?_⟩
  by_contra absent
  refine locks ?_
  rw [run_elsewhere, show empty.table kind inode = InodeLocks.empty by
    cases kind <;> rfl, nothing]
  intro event mem touched
  exact absent (mem_dedup.mpr (mem_filterMap.mpr ⟨event, mem, touched⟩))

/-- Two readers and a writer that waits behind them; the readers start at different
offsets, so the table has a range of one owner and one of two. -/
def readersAndWriter : List LockEvent :=
  [ .posixLockOperation 7 true
      { start := 0, stop := 10, owner := ⟨1, 1, 0, 0⟩, oper := .shared,
        nonblocking := false, nonempty := fun _ => by decide },
    .posixLockOperation 7 true
      { start := 5, stop := 10, owner := ⟨2, 2, 0, 0⟩, oper := .shared,
        nonblocking := false, nonempty := fun _ => by decide },
    .posixLockOperation 7 true
      { start := 8, stop := 9, owner := ⟨3, 3, 4, 5⟩, oper := .exclusive,
        nonblocking := false, nonempty := fun _ => by decide } ]

theorem load_store_readersAndWriter :
    ∃ loaded,
      FileLocks.load (fun _ => InodeLocks.empty)
          (FileLocks.store (touchedInodes readersAndWriter) (touchedInodes readersAndWriter)
            ((run step empty readersAndWriter).table
              .posix)) = some (loaded, []) ∧
      (loaded 7).held =
          ((run step empty readersAndWriter).table .posix 7).held ∧
        (loaded 7).pending = [.single .exclusive 8 9 ⟨3, 3, 0, 0⟩] := by
  obtain ⟨loaded, result, same⟩ := load_store readersAndWriter .posix
    (lists_touchedInodes _ .posix (fun s => s.active.data) rfl)
    (lists_touchedInodes _ .posix (fun s => s.pending) rfl)
  refine ⟨loaded, result, (same 7).1, ?_⟩
  rw [(same 7).2]
  decide

end LockTables

end LeilFS.Locks
