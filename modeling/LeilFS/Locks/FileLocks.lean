/-
Module: LeilFS.Locks.FileLocks
Purpose: Active and waiting locks of an inode, and the operations of the master
  on them.
Trusted boundary: none
-/
import LeilFS.Locks.Ranges

namespace LeilFS.Locks

open SortedSeq

/-!
`FileLocks` maps an inode to its active ranges and to its queue of waiting
requests.  Every method works on the entry of one inode, so the methods are
functions on `InodeLocks`; an inode without an entry has no ranges and no queue.

[SPEC locks.h:220-430]
[SPEC locks.cc:179-253]
-/

/-- The locks of one inode: the active ranges, and the queue of requests that
wait for them. -/
structure InodeLocks where
  active : LockRanges
  pending : List LockRange
deriving Repr, Inhabited, DecidableEq

/-- The largest value of a 64-bit offset. -/
def maxOffset : Nat := 2 ^ 64 - 1

namespace InodeLocks

/-- No entry in either map. -/
def empty : InodeLocks := { active := LockRanges.empty, pending := [] }

/-- Enqueues a lock in front of the first waiting one that is not before it. -/
def enqueue (s : InodeLocks) (lock : LockRange) : InodeLocks :=
  let position := partitionPoint (fun other => other.before lock) s.pending
  { s with pending := s.pending.take position ++ lock :: s.pending.drop position }

/-- Tries to place a lock. -/
def apply (s : InodeLocks) (lock : LockRange) (nonblocking : Bool) : InodeLocks × Bool :=
  if s.active.fits lock then
    ({ s with active := s.active.insert lock }, true)
  else if !nonblocking && !lock.unlocking then (s.enqueue lock, false)
  else (s, false)

/-- The part of the queue that `gatherCandidates` takes out. -/
def candidates (s : InodeLocks) (start stop : Nat) : Window LockRange :=
  window s.pending (LockRanges.firstTouched s.pending start)
    (LockRanges.lastTouched s.pending stop)

/-- Takes the candidates out of the queue. -/
def gatherCandidates (s : InodeLocks) (start stop : Nat) : List LockRange × InodeLocks :=
  let parts := s.candidates start stop
  (parts.middle, { s with pending := parts.front ++ parts.back })

/-- Removes waiting locks. -/
def removePending (s : InodeLocks) (pred : LockRange → Bool) : InodeLocks :=
  { s with pending := s.pending.filter (fun lock => !pred lock) }

/-- Removes all active locks of the inode. -/
def unlockAll (s : InodeLocks) : InodeLocks :=
  { s with active := LockRanges.empty }

/-- The owners of a range that stay when some are removed. -/
def keepOwners (pred : Owner → Bool) (lock : LockRange) : LockRange :=
  { lock with owners := lock.owners.filter (fun owner => !pred owner) }

/-- Removes owners from the active locks.  The pair is the range of the file
affected, empty when there is none. -/
def unlock (s : InodeLocks) (pred : Owner → Bool) : InodeLocks × (Nat × Nat) :=
  let affected := s.active.data.filter (fun lock => lock.owners.any pred)
  let start := affected.foldl (fun start lock => min start lock.start) maxOffset
  let stop := affected.foldl (fun stop lock => max stop lock.stop) 0
  let kept := (s.active.data.map (keepOwners pred)).filter
    (fun lock => !lock.owners.isEmpty)
  ({ s with active := { data := kept } }, (start, stop))

/-!
The operations of the master.  Each of them changes the active locks and then
takes candidates out of the queue; `lockOperation` and `locksUnlockInode` try to
apply every one of them, `locksClearSession` only reports them.

[SPEC filesystem_operations.cc:2586-2826]
-/

/-- Tries every candidate in turn, with the owners of those that are granted. -/
def tryCandidates (s : InodeLocks) : List LockRange → InodeLocks × List Owner
  | [] => (s, [])
  | candidate :: rest =>
      let (next, success) := s.apply candidate false
      let (final, applied) := next.tryCandidates rest
      (final, if success then candidate.owners ++ applied else applied)

/-- Takes candidates out of the queue and tries to apply them. -/
def manageLockTryLockPending (s : InodeLocks) (start stop : Nat) : InodeLocks × List Owner :=
  let (queue, next) := s.gatherCandidates start stop
  next.tryCandidates queue

end InodeLocks

/-- The operation codes of a lock request. -/
inductive LockOper where
  | shared
  | exclusive
  | unlock
  | release
  | other
deriving Repr, Inhabited, DecidableEq

/-- The status of a lock operation; `denied` stands for any error of the
permission check. -/
inductive LockStatus where
  | ok
  | waiting
  | einval
  | denied
deriving Repr, Inhabited, DecidableEq

/-- The arguments of one lock operation.  The client protocol turns a length into
an end behind the start, so a request for a lock is never empty; an administrator
may ask to unlock any pair of offsets.  Where the end is before the start, the model
unlocks nothing; the source then works between two iterators that have crossed, and
what it does there is left open. -/
structure LockCall where
  start : UInt64
  stop : UInt64
  owner : Owner
  oper : LockOper
  nonblocking : Bool
  nonempty : oper = .shared ∨ oper = .exclusive → start.toNat < stop.toNat

namespace LockCall

/-- The range a call asks for, with the type its operation places. -/
def range (call : LockCall) (type : LockType) : LockRange :=
  .single type call.start.toNat call.stop.toNat call.owner

/-- The range a release unlocks. -/
def releaseRange (call : LockCall) : LockRange :=
  .single .unlock 0 maxOffset call.owner

end LockCall

namespace InodeLocks

/-- Matches a range by its owner. -/
def ownerIs (pred : Owner → Bool) (lock : LockRange) : Bool :=
  match lock.owners with
  | owner :: _ => pred owner
  | [] => false

/-- Matches the waiting requests of an owner. -/
def requestOf (owner : Owner) : LockRange → Bool :=
  ownerIs fun o => o.sessionid == owner.sessionid && o.owner == owner.owner

/-- Matches the waiting requests of a session. -/
def requestOfSession (sessionid : Nat) : LockRange → Bool :=
  ownerIs fun o => o.sessionid == sessionid

/-- The end of an operation that may have made room: the waiting requests in the
range are tried. -/
def settle (outcome : InodeLocks × Bool) (start stop : Nat) :
    InodeLocks × LockStatus × List Owner :=
  let (final, applied) := outcome.1.manageLockTryLockPending start stop
  (final, if outcome.2 then .ok else .waiting, applied)

/-- One lock operation that has passed the permission check. -/
def lockOperation (s : InodeLocks) (call : LockCall) : InodeLocks × LockStatus × List Owner :=
  match call.oper with
  | .shared =>
      settle (s.apply (call.range .shared) call.nonblocking)
        call.start.toNat call.stop.toNat
  | .exclusive =>
      -- If the lock is exclusive, no further action is required.
      let (final, success) := s.apply (call.range .exclusive) call.nonblocking
      (final, if success then .ok else .waiting, [])
  | .unlock =>
      settle (s.apply (call.range .unlock) false) call.start.toNat call.stop.toNat
  | .release =>
      let cancelled := s.removePending (requestOf call.owner)
      settle (cancelled.apply call.releaseRange false) 0 maxOffset
  | .other => (s, .einval, [])

/-- Releases and unqueues all locks of a session.  The candidates that the
release may have made possible are reported, and no longer queued. -/
def locksClearSession (s : InodeLocks) (sessionid : Nat) : InodeLocks × List Owner :=
  let cancelled := s.removePending (requestOfSession sessionid)
  let (released, range) := cancelled.unlock (fun o => o.sessionid == sessionid)
  if range.1 < range.2 then
    let (queue, final) := released.gatherCandidates range.1 range.2
    (final, queue.flatMap (fun candidate => candidate.owners))
  else (released, [])

/-- Unlocks the inode and tries the waiting requests that start at most at
`limit`, the end of the largest range of this kind of lock. -/
def locksUnlockInode (s : InodeLocks) (limit : Nat) : InodeLocks × List Owner :=
  s.unlockAll.manageLockTryLockPending 0 limit

/-- Removes a waiting request of an owner. -/
def locksRemovePending (s : InodeLocks) (ownerid sessionid reqid : Nat) : InodeLocks :=
  s.removePending (ownerIs fun o =>
    o.owner == ownerid && o.sessionid == sessionid && o.reqid == reqid)

end InodeLocks

/-!
The master has one table for `flock` locks, where every request is for `[0, 1)`,
and one for POSIX locks.  An operation with any other type code is refused before
it touches a table.
-/

/-- The two tables of the metadata. -/
inductive LockKind where
  | flock
  | posix
deriving Repr, Inhabited, DecidableEq

/-- The end of the range in which waiting requests of a kind may start. -/
def LockKind.limit : LockKind → Nat
  | .flock => 1
  | .posix => maxOffset

/-- What an operation does to the entry of its inode. -/
inductive InodeOp where
  | lock (call : LockCall)
  | clearSession (sessionid : Nat)
  | unlockInode
  | removePending (ownerid sessionid reqid : Nat)

/-- The entry of the inode after an operation, and the owners it reports as
granted. -/
def InodeLocks.step (s : InodeLocks) (limit : Nat) : InodeOp → InodeLocks × List Owner
  | .lock call =>
      let (final, _, applied) := s.lockOperation call
      (final, applied)
  | .clearSession sessionid => s.locksClearSession sessionid
  | .unlockInode => s.locksUnlockInode limit
  | .removePending ownerid sessionid reqid =>
      (s.locksRemovePending ownerid sessionid reqid, [])

/-- The lock tables of the metadata, each a map from inodes. -/
structure LockTables where
  flock : Nat → InodeLocks
  posix : Nat → InodeLocks

namespace LockTables

/-- No locks. -/
def empty : LockTables :=
  { flock := fun _ => InodeLocks.empty, posix := fun _ => InodeLocks.empty }

/-- The table of a kind. -/
def table (tables : LockTables) : LockKind → Nat → InodeLocks
  | .flock => tables.flock
  | .posix => tables.posix

/-- Replace the entry of one inode in the table of a kind. -/
def set (tables : LockTables) (kind : LockKind) (inode : Nat) (entry : InodeLocks) : LockTables :=
  match kind with
  | .flock => { tables with flock := Function.update tables.flock inode entry }
  | .posix => { tables with posix := Function.update tables.posix inode entry }

theorem table_set (tables : LockTables) (kind other : LockKind) (inode node : Nat)
    (entry : InodeLocks) : (tables.set kind inode entry).table other node =
      if other = kind ∧ node = inode then entry else tables.table other node := by
  cases kind <;> cases other <;> simp [set, table, Function.update_apply]

end LockTables

/-- The calls that change lock tables.  `allowed` is the verdict of
`checkLockPermissions`, which for calls of the master depends on whether the inode
exists. -/
inductive LockEvent where
  | flockOperation (inode : Nat) (allowed : Bool) (owner : Owner) (oper : LockOper)
      (nonblocking : Bool)
  | posixLockOperation (inode : Nat) (allowed : Bool) (call : LockCall)
  | locksClearSession (kind : LockKind) (inode sessionid : Nat)
  | locksUnlockInode (kind : LockKind) (inode : Nat)
  | locksRemovePending (kind : LockKind) (ownerid sessionid inode reqid : Nat)

namespace LockEvent

/-- A `flock` request is a request for `[0, 1)`. -/
def flockCall (owner : Owner) (oper : LockOper) (nonblocking : Bool) : LockCall :=
  { start := 0, stop := 1, owner := owner, oper := oper, nonblocking := nonblocking,
    nonempty := fun _ => by decide }

/-- The table, the inode and the operation on its entry; nothing when the
permission check fails. -/
def target : LockEvent → Option (LockKind × Nat × InodeOp)
  | .flockOperation inode allowed owner oper nonblocking =>
      if allowed then some (.flock, inode, .lock (flockCall owner oper nonblocking))
      else none
  | .posixLockOperation inode allowed call =>
      if allowed then some (.posix, inode, .lock call) else none
  | .locksClearSession kind inode sessionid =>
      some (kind, inode, .clearSession sessionid)
  | .locksUnlockInode kind inode => some (kind, inode, .unlockInode)
  | .locksRemovePending kind ownerid sessionid inode reqid =>
      some (kind, inode, .removePending ownerid sessionid reqid)

end LockEvent

namespace LockTables

/-- The tables after an event. -/
def step (tables : LockTables) (event : LockEvent) : LockTables :=
  match event.target with
  | none => tables
  | some (kind, inode, op) =>
      tables.set kind inode ((tables.table kind inode).step kind.limit op).1

/-- The owners that an event reports as granted. -/
def applied (tables : LockTables) (event : LockEvent) : List Owner :=
  match event.target with
  | none => []
  | some (kind, inode, op) => ((tables.table kind inode).step kind.limit op).2

end LockTables

end LeilFS.Locks
