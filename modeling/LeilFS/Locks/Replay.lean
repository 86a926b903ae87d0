/-
Module: LeilFS.Locks.Replay
Purpose: Replaying the change log of lock operations, compared with the master.
Trusted boundary: none
-/
import LeilFS.Locks.Queue

namespace LeilFS.Locks

open Owner InodeLocks LockTables LockRange List SortedSeq InsertCursor LockRanges

/-!
Every lock operation of the master writes one line to the change log, and a shadow
replays the lines with the same operations.  A line has the table, the inode, the
range, the owner and the operation; it has neither the request and message ids of
the owner nor the flag that a request must not block.

Request and message ids are no part of the state that is compared.  `mapOwners` runs
a function over all owners, and every part of the lock code commutes with one that
keeps the identity of owners.

[SPEC filesystem_operations.cc:2639-2826]
[SPEC restore.cc:496-644]
-/

/-- Apply a function to the owners of a range. -/
def LockRange.mapOwners (f : Owner → Owner) (range : LockRange) : LockRange :=
  { range with owners := range.owners.map f }

/-- Apply a function to all owners of a table. -/
def LockRanges.mapOwners (f : Owner → Owner) (locks : LockRanges) : LockRanges :=
  { data := locks.data.map (LockRange.mapOwners f) }

/-- Apply a function to all owners in the loop of an insertion. -/
def InsertCursor.mapOwners (f : Owner → Owner) (c : InsertCursor) : InsertCursor :=
  { range := c.range.mapOwners f
    done := c.done.map (LockRange.mapOwners f)
    todo := c.todo.map (LockRange.mapOwners f) }

/-- Apply a function to all owners of an entry. -/
def InodeLocks.mapOwners (f : Owner → Owner) (s : InodeLocks) : InodeLocks :=
  { active := s.active.mapOwners f
    pending := s.pending.map (LockRange.mapOwners f) }

section MapOwners

variable {f : Owner → Owner} (keepsKey : ∀ o, (f o).key = o.key)

include keepsKey in
theorem same_map (a b : Owner) : (f a).same (f b) = a.same b := by
  rw [Bool.eq_iff_iff, same_iff, same_iff, keepsKey, keepsKey]

include keepsKey in
theorem lt_map (a b : Owner) : (f a).lt (f b) = a.lt b := by
  rw [Bool.eq_iff_iff, lt_iff, lt_iff, keepsKey, keepsKey]

namespace LockRange

@[simp] theorem mapOwners_type (range : LockRange) :
    (range.mapOwners f).type = range.type := rfl

@[simp] theorem mapOwners_start (range : LockRange) :
    (range.mapOwners f).start = range.start := rfl

@[simp] theorem mapOwners_stop (range : LockRange) :
    (range.mapOwners f).stop = range.stop := rfl

@[simp] theorem overlaps_mapOwners (range other : LockRange) :
    (range.mapOwners f).overlaps (other.mapOwners f) = range.overlaps other := rfl

@[simp] theorem sticks_mapOwners (range other : LockRange) :
    (range.mapOwners f).sticks (other.mapOwners f) = range.sticks other := rfl

include keepsKey in
theorem keys_mapOwners (range : LockRange) : (range.mapOwners f).keys = range.keys := by
  simp [LockRange.mapOwners, keys, keepsKey]

include keepsKey in
theorem sameOwners_mapOwners (range other : LockRange) :
    (range.mapOwners f).sameOwners (other.mapOwners f) = range.sameOwners other := by
  rw [Bool.eq_iff_iff, sameOwners_iff, sameOwners_iff, keys_mapOwners keepsKey,
    keys_mapOwners keepsKey]

@[simp] theorem unlocking_mapOwners (range : LockRange) :
    (range.mapOwners f).unlocking = range.unlocking := by
  simp [LockRange.mapOwners, unlocking]

include keepsKey in
theorem absorb_mapOwners (range piece : LockRange) :
    (range.mapOwners f).absorb (piece.mapOwners f) = (range.absorb piece).mapOwners f := by
  unfold absorb
  rw [sameOwners_mapOwners keepsKey, unlocking_mapOwners]
  split
  · rfl
  split
  · cases owners : range.owners with
    | nil => simp [LockRange.mapOwners, owners]
    | cons cand rest =>
      simp only [LockRange.mapOwners, owners, map_cons, eraseOwner]
      rw [eraseFound_map f (lt_map keepsKey) (same_map keepsKey)]
  · simp only [LockRange.mapOwners, addOwners]
    rw [merge_map f (lt_map keepsKey), unique_map f (same_map keepsKey)]

end LockRange

namespace InsertCursor

include keepsKey in
theorem step_mapOwners (c : InsertCursor) : (c.mapOwners f).step = c.step.map (mapOwners f) := by
  obtain ⟨range, done, todo⟩ := c
  cases todo with
  | nil => rfl
  | cons other rest =>
    have whole := absorb_mapOwners keepsKey range other
    have front := absorb_mapOwners keepsKey range
      { other with stop := range.stop }
    simp only [step, mapOwners, map_cons, LockRange.mapOwners_start, LockRange.mapOwners_stop,
      mapOwners_type, overlaps_mapOwners, sticks_mapOwners, sameOwners_mapOwners keepsKey, whole]
    split_ifs
    · rfl
    · simp [mapOwners, LockRange.mapOwners, LockRange.markUnlocking]
    · rfl
    · simp [mapOwners]
    · simp [mapOwners, LockRange.mapOwners]
    · simpa [mapOwners, LockRange.mapOwners] using front
    · simp [mapOwners, LockRange.mapOwners]
    · simp [mapOwners, LockRange.mapOwners]

@[simp] theorem cost_mapOwners (c : InsertCursor) : (c.mapOwners f).cost = c.cost := by
  obtain ⟨range, done, todo⟩ := c
  cases todo <;> simp [cost, mapOwners]

include keepsKey in
theorem loop_mapOwners (fuel : Nat) (c : InsertCursor) :
    (c.mapOwners f).loop fuel = (c.loop fuel).mapOwners f := by
  induction fuel generalizing c with
  | zero => rfl
  | succ fuel ih =>
    simp only [loop, step_mapOwners keepsKey]
    cases c.step with
    | none => rfl
    | some next => exact ih next

theorem close_mapOwners (c : InsertCursor) :
    (c.mapOwners f).close = c.close.map (LockRange.mapOwners f) := by
  have keepsLive (data : List LockRange) :
      (data.map (LockRange.mapOwners f)).filter (fun range => !range.unlocking) =
        (data.filter (fun range => !range.unlocking)).map (LockRange.mapOwners f) := by
    rw [filter_map]
    congr 2
    funext range
    simp
  have mapped : (c.mapOwners f).close =
      ((c.done ++ (if c.range.start < c.range.stop then [c.range] else []) ++ c.todo).map
        (LockRange.mapOwners f)).filter (fun range => !range.unlocking) := by
    by_cases left : c.range.start < c.range.stop <;> simp [close, mapOwners, left]
  rw [mapped, keepsLive]
  rfl

end InsertCursor

namespace LockRanges

theorem touched_mapOwners (data : List LockRange) (range : LockRange) :
    touched (data.map (LockRange.mapOwners f)) (range.mapOwners f) =
      { front := (touched data range).front.map (LockRange.mapOwners f)
        middle := (touched data range).middle.map (LockRange.mapOwners f)
        back := (touched data range).back.map (LockRange.mapOwners f) } := by
  simp only [touched, firstTouched, lastTouched, partitionPoint_map, window_map]
  rfl

include keepsKey in
theorem insert_mapOwners (locks : LockRanges) (range : LockRange) :
    (locks.mapOwners f).insert (range.mapOwners f) = (locks.insert range).mapOwners f := by
  have cursor : (locks.mapOwners f).cursor (range.mapOwners f) =
      (locks.cursor range).mapOwners f := by
    simp only [cursor, mapOwners, touched_mapOwners, InsertCursor.mapOwners, map_nil]
  simp only [insert, cursor, InsertCursor.cost_mapOwners,
    InsertCursor.loop_mapOwners keepsKey, InsertCursor.close_mapOwners]
  simp only [mapOwners, touched_mapOwners, map_append]

include keepsKey in
theorem fits_mapOwners (locks : LockRanges) (range : LockRange) :
    (locks.mapOwners f).fits (range.mapOwners f) = locks.fits range := by
  have collide (other : LockRange) :
      collides (range.mapOwners f) (other.mapOwners f) = collides range other := by
    simp only [collides, overlaps_mapOwners, mapOwners_type, sameOwners_mapOwners keepsKey]
  simp only [fits, findCollision, unlocking_mapOwners]
  split
  · rfl
  simp only [mapOwners, touched_mapOwners, find?_map]
  rw [Option.isNone_map]
  congr 2
  funext other
  exact collide other

end LockRanges

namespace InodeLocks

theorem enqueue_mapOwners (s : InodeLocks) (lock : LockRange) :
    (s.mapOwners f).enqueue (lock.mapOwners f) = (s.enqueue lock).mapOwners f := by
  have position : partitionPoint (fun other => other.before (lock.mapOwners f))
      (s.pending.map (LockRange.mapOwners f)) =
        partitionPoint (fun other => other.before lock) s.pending := by
    rw [partitionPoint_map]
    rfl
  simp only [enqueue, mapOwners, position, map_append, map_cons, map_take, map_drop]

include keepsKey in
theorem apply_mapOwners (s : InodeLocks) (lock : LockRange) (nonblocking : Bool) :
    (s.mapOwners f).apply (lock.mapOwners f) nonblocking =
      ((s.apply lock nonblocking).1.mapOwners f, (s.apply lock nonblocking).2) := by
  have fits : (s.mapOwners f).active.fits (lock.mapOwners f) = s.active.fits lock :=
    fits_mapOwners keepsKey s.active lock
  simp only [apply, fits, unlocking_mapOwners]
  split
  · simp only [mapOwners, insert_mapOwners keepsKey]
  · split
    · rw [enqueue_mapOwners]
    · rfl

theorem gatherCandidates_mapOwners (s : InodeLocks) (start stop : Nat) :
    (s.mapOwners f).gatherCandidates start stop =
      ((s.gatherCandidates start stop).1.map (LockRange.mapOwners f),
        (s.gatherCandidates start stop).2.mapOwners f) := by
  simp only [gatherCandidates, candidates, mapOwners, firstTouched,
    lastTouched, partitionPoint_map, window_map, map_append]
  rfl

include keepsKey in
theorem tryCandidates_mapOwners (s : InodeLocks) (queue : List LockRange) :
    ((s.mapOwners f).tryCandidates (queue.map (LockRange.mapOwners f))).1 =
      (s.tryCandidates queue).1.mapOwners f := by
  induction queue generalizing s with
  | nil => rfl
  | cons cand rest ih =>
    simp only [map_cons, tryCandidates, apply_mapOwners keepsKey]
    exact ih _

include keepsKey in
theorem manage_mapOwners (s : InodeLocks) (start stop : Nat) :
    ((s.mapOwners f).manageLockTryLockPending start stop).1 =
      (s.manageLockTryLockPending start stop).1.mapOwners f := by
  simp only [manageLockTryLockPending, gatherCandidates_mapOwners]
  exact tryCandidates_mapOwners keepsKey _ _

theorem removePending_mapOwners (s : InodeLocks) (pred pred' : LockRange → Bool)
    (agrees : ∀ q ∈ s.pending, pred' (q.mapOwners f) = pred q) :
    (s.mapOwners f).removePending pred' = (s.removePending pred).mapOwners f := by
  simp only [removePending, mapOwners, filter_map]
  congr 2
  apply filter_congr
  intro q mem
  simp [agrees q mem]

theorem ownerIs_mapOwners {pred pred' : Owner → Bool} (q : LockRange)
    (agrees : ∀ o ∈ q.owners, pred' (f o) = pred o) :
    ownerIs pred' (q.mapOwners f) = ownerIs pred q := by
  unfold ownerIs LockRange.mapOwners
  cases owners : q.owners with
  | nil => rfl
  | cons owner rest => exact agrees owner (by simp [owners])

theorem unlock_mapOwners (s : InodeLocks) {pred : Owner → Bool}
    (agrees : ∀ o, pred (f o) = pred o) :
    (s.mapOwners f).unlock pred = ((s.unlock pred).1.mapOwners f, (s.unlock pred).2) := by
  have affected : (s.active.data.map (LockRange.mapOwners f)).filter
      (fun lock => lock.owners.any pred) =
        (s.active.data.filter (fun lock => lock.owners.any pred)).map (LockRange.mapOwners f) := by
    rw [filter_map]
    congr 2
    funext lock
    simp only [Function.comp, LockRange.mapOwners, any_map]
    congr 1
    funext o
    exact agrees o
  have keep (lock : LockRange) :
      keepOwners pred (lock.mapOwners f) = (keepOwners pred lock).mapOwners f := by
    simp only [keepOwners, LockRange.mapOwners, filter_map]
    congr 3
    funext o
    simp [agrees o]
  have kept : ((s.active.data.map (LockRange.mapOwners f)).map (keepOwners pred)).filter
      (fun lock => !lock.owners.isEmpty) =
        ((s.active.data.map (keepOwners pred)).filter
          (fun lock => !lock.owners.isEmpty)).map (LockRange.mapOwners f) := by
    have swap : (s.active.data.map (LockRange.mapOwners f)).map (keepOwners pred) =
        (s.active.data.map (keepOwners pred)).map (LockRange.mapOwners f) := by
      simp [keep]
    rw [swap, filter_map]
    congr 2
    funext lock
    simp [LockRange.mapOwners]
  simp only [unlock, mapOwners, LockRanges.mapOwners, affected, kept,
    foldl_map, LockRange.mapOwners_start, LockRange.mapOwners_stop]

end InodeLocks

end MapOwners

/-!
The change log.  A line for a lock request has the arguments that follow; the line
is written for every request, also for one that was refused.
-/

/-- The owner without the ids that only answer and interrupt a request. -/
def Owner.forget (o : Owner) : Owner := { o with reqid := 0, msgid := 0 }

theorem key_forget (o : Owner) : o.forget.key = o.key := rfl

/-- The lines of the change log for locks.  As in a `LockCall`, a line for a lock
has a non-empty range. -/
inductive LogEntry where
  | flck (kind : LockKind) (inode : Nat) (start stop : UInt64) (owner sessionid : Nat)
      (oper : LockOper)
      (nonempty : oper = .shared ∨ oper = .exclusive → start.toNat < stop.toNat)
  | clrlck (kind : LockKind) (inode sessionid : Nat)
  | flckinode (kind : LockKind) (inode : Nat)
  | rmplock (kind : LockKind) (ownerid sessionid inode reqid : Nat)

/-- The line the master writes for an event. -/
def LockEvent.log : LockEvent → LogEntry
  | .flockOperation inode _ owner oper nonblocking =>
      .flck .flock inode 0 1 owner.owner owner.sessionid oper
        (flockCall owner oper nonblocking).nonempty
  | .posixLockOperation inode _ call =>
      .flck .posix inode call.start call.stop call.owner.owner call.owner.sessionid
        call.oper call.nonempty
  | .locksClearSession kind inode sessionid => .clrlck kind inode sessionid
  | .locksUnlockInode kind inode => .flckinode kind inode
  | .locksRemovePending kind ownerid sessionid inode reqid =>
      .rmplock kind ownerid sessionid inode reqid

/-- The call that replays a line, on an inode that exists. -/
def LogEntry.replay : LogEntry → LockEvent
  | .flck .flock inode _ _ owner sessionid oper _ =>
      .flockOperation inode true ⟨owner, sessionid, 0, 0⟩ oper false
  | .flck .posix inode start stop owner sessionid oper nonempty =>
      .posixLockOperation inode true
        { start := start, stop := stop, owner := ⟨owner, sessionid, 0, 0⟩, oper := oper,
          nonblocking := false, nonempty := nonempty }
  | .clrlck kind inode sessionid => .locksClearSession kind inode sessionid
  | .flckinode kind inode => .locksUnlockInode kind inode
  | .rmplock kind ownerid sessionid inode reqid =>
      .locksRemovePending kind ownerid sessionid inode reqid

/-- What is left of a call in the log. -/
def LockCall.logged (call : LockCall) : LockCall :=
  { call with owner := call.owner.forget, nonblocking := false }

/-- What is left of an operation in the log. -/
def InodeOp.logged : InodeOp → InodeOp
  | .lock call => .lock call.logged
  | op => op

theorem LockEvent.target_replay {event : LockEvent} {kind : LockKind} {inode : Nat}
    {op : InodeOp} (target : event.target = some (kind, inode, op)) :
    event.log.replay.target = some (kind, inode, op.logged) := by
  cases event with
  | flockOperation inode allowed owner oper nonblocking =>
    simp only [LockEvent.target] at target
    split at target
    · cases target
      rfl
    · cases target
  | posixLockOperation inode allowed call =>
    simp only [LockEvent.target] at target
    split at target
    · cases target
      rfl
    · cases target
  | locksClearSession kind inode sessionid =>
    cases target
    rfl
  | locksUnlockInode kind inode =>
    cases target
    rfl
  | locksRemovePending kind ownerid sessionid inode reqid =>
    cases target
    rfl

namespace InodeLocks

/-- The entry without request and message ids. -/
def forget (s : InodeLocks) : InodeLocks := s.mapOwners Owner.forget

/-- The condition on an operation, in terms of the entry before it: its code is known,
since a shadow stops at the line of one that is not, a request that must not block is
granted, and a cancellation finds its requests by owner and session alone. -/
def Replayable (s : InodeLocks) : InodeOp → Prop
  | .lock call =>
      call.oper ≠ .other ∧ (call.nonblocking = true →
        (call.oper = .shared → s.active.fits (call.range .shared) = true) ∧
          (call.oper = .exclusive → s.active.fits (call.range .exclusive) = true))
  | .removePending ownerid sessionid reqid =>
      ∀ q ∈ s.pending, ownerIs (fun o => o.owner == ownerid && o.sessionid == sessionid) q →
        (ownerIs (fun o => o.reqid == reqid) q ↔ reqid = 0)
  | _ => True

instance (s : InodeLocks) : ∀ op, Decidable (s.Replayable op)
  | .lock _ => inferInstanceAs (Decidable (_ ∧ _))
  | .removePending .. => inferInstanceAs (Decidable (∀ _ ∈ _, _))
  | .clearSession _ | .unlockInode => isTrue trivial

/-- A granted request does not depend on whether it may block. -/
theorem apply_nonblocking (s : InodeLocks) (lock : LockRange) {nonblocking : Bool}
    (granted : nonblocking = true → s.active.fits lock = true) :
    s.apply lock nonblocking = s.apply lock false := by
  cases nonblocking with
  | false => rfl
  | true => rw [apply_of_fits true (granted rfl), apply_of_fits false (granted rfl)]

theorem settle_forget (outcome : InodeLocks × Bool) (start stop : Nat) :
    (settle (outcome.1.forget, outcome.2) start stop).1 = (settle outcome start stop).1.forget :=
  manage_mapOwners key_forget outcome.1 start stop

theorem lockOperation_forget (s : InodeLocks) {call : LockCall} (h : s.Replayable (.lock call)) :
    (s.forget.lockOperation call.logged).1 = (s.lockOperation call).1.forget := by
  have applied (type : LockType)
      (granted : call.nonblocking = true → s.active.fits (call.range type) = true) :
      s.forget.apply (call.logged.range type) false =
        ((s.apply (call.range type) call.nonblocking).1.forget,
          (s.apply (call.range type) call.nonblocking).2) := by
    rw [apply_nonblocking s _ granted]
    exact apply_mapOwners key_forget s (call.range type) false
  unfold lockOperation
  cases oper : call.oper with
  | shared =>
    have next := applied .shared fun nonblocking => (h.2 nonblocking).1 oper
    simp only [LockCall.logged, oper] at next ⊢
    rw [next]
    exact settle_forget _ _ _
  | exclusive =>
    have next := applied .exclusive fun nonblocking => (h.2 nonblocking).2 oper
    simp only [LockCall.logged, oper] at next ⊢
    rw [next]
  | unlock =>
    have next := apply_mapOwners key_forget s (call.range .unlock) false
    simp only [LockCall.logged, oper]
    exact (congrArg (fun outcome => (settle outcome _ _).1) next).trans (settle_forget _ _ _)
  | release =>
    simp only [LockCall.logged, oper]
    have cancelled : s.forget.removePending (requestOf call.owner.forget) =
        (s.removePending (requestOf call.owner)).forget :=
      removePending_mapOwners s _ _ fun q _ => ownerIs_mapOwners q fun _ _ => rfl
    have next := apply_mapOwners key_forget
      (s.removePending (requestOf call.owner)) call.releaseRange false
    rw [cancelled]
    exact (congrArg (fun outcome => (settle outcome _ _).1) next).trans (settle_forget _ _ _)
  | other => exact absurd oper h.1

/-- The replay of an operation that meets the condition does to the entry without ids
what the master did to the entry. -/
theorem step_forget (s : InodeLocks) (limit : Nat) {op : InodeOp} (h : s.Replayable op) :
    (s.forget.step limit op.logged).1 = (s.step limit op).1.forget := by
  cases op with
  | lock call => exact s.lockOperation_forget h
  | clearSession sessionid =>
    have cancelled : s.forget.removePending (requestOfSession sessionid) =
        (s.removePending (requestOfSession sessionid)).forget :=
      removePending_mapOwners s _ _ fun q _ => ownerIs_mapOwners q fun _ _ => rfl
    have released : (s.removePending (requestOfSession sessionid)).forget.unlock
        (fun o => o.sessionid == sessionid) = _ :=
      unlock_mapOwners (s.removePending (requestOfSession sessionid)) fun _ => rfl
    simp only [InodeLocks.step, InodeOp.logged, locksClearSession, cancelled,
      released, gatherCandidates_mapOwners]
    split <;> rfl
  | unlockInode => exact manage_mapOwners key_forget s.unlockAll 0 limit
  | removePending ownerid sessionid reqid =>
    refine removePending_mapOwners s _ _ fun q mem => ?_
    have matching := h q mem
    unfold ownerIs LockRange.mapOwners at *
    cases owners : q.owners with
    | nil => rfl
    | cons owner rest =>
      simp only [owners, Bool.and_eq_true, beq_iff_eq] at matching
      simp only [map_cons]
      by_cases identity : owner.owner = ownerid ∧ owner.sessionid = sessionid
      · rw [Bool.eq_iff_iff]
        simp only [Bool.and_eq_true, beq_iff_eq]
        tauto
      · rw [Bool.eq_iff_iff]
        simp only [Bool.and_eq_true, beq_iff_eq]
        tauto

end InodeLocks

namespace LockTables

/-- The tables without request and message ids. -/
def forget (tables : LockTables) : LockTables :=
  { flock := fun inode => (tables.flock inode).forget
    posix := fun inode => (tables.posix inode).forget }

theorem table_forget (tables : LockTables) (kind : LockKind) (inode : Nat) :
    tables.forget.table kind inode = (tables.table kind inode).forget := by
  cases kind <;> rfl

theorem set_forget (tables : LockTables) (kind : LockKind) (inode : Nat) (entry : InodeLocks) :
    (tables.set kind inode entry).forget = tables.forget.set kind inode entry.forget := by
  cases kind with
  | flock =>
    simp only [set, forget, mk.injEq, and_true]
    funext node
    by_cases same : node = inode <;> simp [same]
  | posix =>
    simp only [set, forget, mk.injEq, true_and]
    funext node
    by_cases same : node = inode <;> simp [same]

/-- The condition on an event, in terms of the tables before it: its inode exists,
and its line in the log says all that matters. -/
def Replayable (tables : LockTables) (event : LockEvent) : Prop :=
  match event.target with
  | none => False
  | some (kind, inode, op) => (tables.table kind inode).Replayable op

instance (tables : LockTables) (event : LockEvent) : Decidable (tables.Replayable event) := by
  unfold Replayable
  split <;> infer_instance

theorem step_forget {tables : LockTables} {event : LockEvent} (h : tables.Replayable event) :
    tables.forget.step event.log.replay = (tables.step event).forget := by
  unfold Replayable at h
  cases target : event.target with
  | none => simp [target] at h
  | some found =>
    simp only [target] at h
    simp only [step, target, LockEvent.target_replay target, set_forget, table_forget,
      InodeLocks.step_forget _ _ h]

/-- In a run in which every event meets the condition, replaying the log of the run
gives the locks of the master, up to request and message ids. -/
theorem replay_agrees {events : List LockEvent}
    (along : StepSystem.Along step Replayable empty events) :
    StepSystem.run step empty
        (events.map fun event => event.log.replay) =
      (StepSystem.run step empty events).forget :=
  StepSystem.run_map_of_simulation (fun _ _ => step_forget) along

/-- A request that must not block is granted, two others wait, one of them is cancelled,
and the other one gets the lock when it is given back. -/
def grantedInTurn : List LockEvent :=
  [ .flockOperation 1 true ⟨1, 1, 3, 4⟩ .exclusive true,
    .flockOperation 1 true ⟨2, 2, 0, 5⟩ .exclusive false,
    .flockOperation 1 true ⟨3, 3, 7, 6⟩ .exclusive false,
    .locksRemovePending .flock 2 2 1 0,
    .flockOperation 1 true ⟨1, 1, 0, 0⟩ .unlock false ]

theorem replay_agrees_granted :
    ((StepSystem.run step empty grantedInTurn).flock 1).active.data =
        [.single .exclusive 0 1 ⟨3, 3, 7, 6⟩] ∧
      StepSystem.run step empty (grantedInTurn.map fun event => event.log.replay) =
        (StepSystem.run step empty grantedInTurn).forget :=
  ⟨by decide, replay_agrees (by decide)⟩

/-- Another owner holds the lock while a request that must not block is refused; then
the lock is released. -/
def refusedTryLock : List LockEvent :=
  [ .flockOperation 1 true ⟨1, 1, 0, 0⟩ .exclusive false,
    .flockOperation 1 true ⟨2, 2, 0, 0⟩ .exclusive true,
    .flockOperation 1 true ⟨1, 1, 0, 0⟩ .unlock false ]

/-- Another owner holds the lock while a request waits and is interrupted; then the
lock is released. -/
def interruptedWait : List LockEvent :=
  [ .flockOperation 1 true ⟨1, 1, 0, 0⟩ .exclusive false,
    .flockOperation 1 true ⟨2, 2, 9, 0⟩ .exclusive false,
    .locksRemovePending .flock 2 2 1 9,
    .flockOperation 1 true ⟨1, 1, 0, 0⟩ .unlock false ]

/-- In both histories the master ends without locks, and the replay ends with a lock
of the second owner. -/
theorem replay_grants_refused_request :
    [refusedTryLock, interruptedWait].map (fun events =>
      (((StepSystem.run step empty events).flock 1).forget.active,
        ((StepSystem.run step empty (events.map fun event => event.log.replay)).flock 1).active)) =
      replicate 2 (LockRanges.empty, { data := [.single .exclusive 0 1 ⟨2, 2, 0, 0⟩] }) := by
  decide

end LockTables

end LeilFS.Locks
