/-
Module: LeilFS.Locks.Wakeup
Purpose: When an operation on locks wakes every waiting request it makes possible.
Trusted boundary: none
-/
import LeilFS.Locks.Queue

namespace LeilFS.Locks

open StepSystem LockTables List

/-!
A request waits in the queue because some other owner excludes it.  An operation
that takes locks away looks for waiting requests in the window of the queue from
the last one that starts before the released range to the last one that starts at
or before its end.  Longer requests further in front are not seen, and neither is
what becomes possible when a granted shared request replaces an exclusive lock of
its own owner.  `Searched` excludes the two: it asks that the requests in front of
that window end before the released range, and that no candidate lowers a lock.
That the requests outside the window are then still blocked is proved.
-/

/-- The second request does not turn the lock of the first one from exclusive to
shared. -/
def LockRange.KeepsLock (first second : LockRange) : Prop :=
  first.type = .exclusive → second.type = .shared →
    first.requester = second.requester → first.overlaps second = false

namespace InodeLocks

variable {limit : Nat} {s : InodeLocks}

/-- No waiting request fits the active locks. -/
def Asleep (s : InodeLocks) : Prop :=
  ∀ q ∈ s.pending, s.active.fits q = false

theorem Valid.asleep_iff (h : Valid limit s) : s.Asleep ↔ ∀ q ∈ s.pending, s.held.Blocks q := by
  constructor
  · intro asleep q mem
    have waiting := h.waiting q mem
    exact (h.active.fits_eq_false_iff waiting.request waiting.not_unlock).mp (asleep q mem)
  · intro blocked q mem
    have waiting := h.waiting q mem
    exact (h.active.fits_eq_false_iff waiting.request waiting.not_unlock).mpr (blocked q mem)

/-- With `held` the locks after a release: the requests that are not tried are
blocked by what is left, no tried request gives up an exclusive lock of its own
owner, and none gives up the exclusive lock that an earlier one asks for. -/
structure Wakes (held : HeldMap) (candidates skipped : List LockRange) : Prop where
  blocked : ∀ q ∈ skipped, held.Blocks q
  raises : ∀ q ∈ candidates, q ∉ skipped → q.type = .shared →
    ∀ x, q.start ≤ x → x < q.stop → held x q.requester ≠ .exclusive
  keeps : candidates.Pairwise LockRange.KeepsLock

variable {held : HeldMap} {candidate : LockRange} {rest skipped : List LockRange}

/-- Granting a candidate of a waking operation lowers no mode, and what is left to
try is again waking. -/
theorem Wakes.grant (h : Wakes held (candidate :: rest) skipped) (fresh : candidate ∉ skipped)
    (locking : candidate.type = .shared ∨ candidate.type = .exclusive) :
    Wakes (held.assign candidate.start candidate.stop candidate.requester
      candidate.type.mode) rest skipped := by
  have keeps := pairwise_cons.mp h.keeps
  have up : ∀ x, candidate.start ≤ x → x < candidate.stop →
      held x candidate.requester ≤ candidate.type.mode := by
    intro x low high
    rcases locking with type | type
    · have notExclusive := h.raises candidate (by simp) fresh type x low high
      rw [type]
      show held x candidate.requester ≤ Mode.shared
      rw [Mode.le_iff]
      cases mode : held x candidate.requester <;> simp_all [Mode.rank]
    · rw [type]
      exact Mode.le_exclusive _
  have raised := HeldMap.le_assign up
  refine ⟨fun q mem => (h.blocked q mem).mono raised, ?_, keeps.2⟩
  intro q mem new shared x low high
  unfold HeldMap.assign
  split
  next inside =>
    rcases locking with type | type
    · simp [type, LockType.mode]
    · -- An exclusive candidate of the same owner does not reach here.
      have apart := keeps.1 q mem type shared inside.2.2.symm
      simp only [LockRange.overlaps, Bool.and_eq_false_iff, decide_eq_false_iff_not] at apart
      omega
  · exact h.raises q (by simp [mem]) new shared x low high

theorem Wakes.skip (h : Wakes held (candidate :: rest) skipped) (blocked : held.Blocks candidate) :
    Wakes held rest (candidate :: skipped) := by
  refine ⟨?_, ?_, (pairwise_cons.mp h.keeps).2⟩
  · intro q mem
    rcases mem_cons.mp mem with rfl | mem
    · exact blocked
    · exact h.blocked q mem
  · intro q mem new
    exact h.raises q (by simp [mem]) fun old => new (mem_cons_of_mem _ old)

/-- Trying the candidates of a waking operation keeps blocked what was blocked, and
leaves nobody in the queue who could have been granted. -/
theorem Wakes.tryCandidates {queue skipped : List LockRange} (h : Valid limit s)
    (waiting : ∀ q ∈ queue, q.Waiting limit) (wakes : Wakes s.held queue skipped) :
    (∀ q ∈ skipped, (s.tryCandidates queue).1.held.Blocks q) ∧
      ((∀ q ∈ s.pending, q ∈ skipped) → ∀ q ∈ (s.tryCandidates queue).1.pending,
        (s.tryCandidates queue).1.held.Blocks q) := by
  induction queue generalizing s skipped with
  | nil => exact ⟨wakes.blocked, fun all q mem => wakes.blocked q (all q mem)⟩
  | cons candidate rest ih =>
    obtain ⟨candidateWaiting, restWaiting⟩ := forall_mem_cons.mp waiting
    rcases h.apply_cases candidateWaiting false with
      ⟨fits, applied, next, held⟩ | ⟨-, blocked, applied, next⟩
    · have fresh : candidate ∉ skipped := fun old => by
        have := (h.active.fits_eq_false_iff candidateWaiting.request
          candidateWaiting.not_unlock).mpr (wakes.blocked candidate old)
        rw [fits] at this
        cases this
      simp only [InodeLocks.tryCandidates, applied]
      apply ih next restWaiting
      rw [held]
      exact wakes.grant fresh candidateWaiting.locking
    · simp only [InodeLocks.tryCandidates, applied]
      obtain ⟨kept, all⟩ := ih next restWaiting (wakes.skip blocked)
      refine ⟨fun q mem => kept q (mem_cons_of_mem _ mem), fun covered => ?_⟩
      apply all
      intro q mem
      rcases mem_enqueue.mp mem with rfl | mem
      · exact mem_cons_self
      · exact mem_cons_of_mem _ (covered q mem)

/-- Candidates that do not fit all go back to the queue. -/
theorem tryCandidates_of_blocked {queue : List LockRange} (waiting : ∀ q ∈ queue, q.Waiting limit)
    (blocked : ∀ q ∈ queue, s.active.fits q = false) :
    (s.tryCandidates queue).1.active = s.active ∧ (s.tryCandidates queue).2 = [] ∧
      ∀ q, q ∈ (s.tryCandidates queue).1.pending ↔ q ∈ queue ∨ q ∈ s.pending := by
  induction queue generalizing s with
  | nil => simp [InodeLocks.tryCandidates]
  | cons candidate rest ih =>
    rw [forall_mem_cons] at waiting blocked
    have applied := apply_of_not_fits false blocked.1 waiting.1.not_unlocking
    simp only [InodeLocks.tryCandidates, applied]
    obtain ⟨active, none, members⟩ := ih (s := s.enqueue candidate) waiting.2 blocked.2
    refine ⟨active, none, fun q => ?_⟩
    rw [if_neg (by simp), members, mem_enqueue, mem_cons]
    tauto

/-- Of the waiting requests that start before an offset, only the last one in the
queue may go on behind it. -/
def OnlyLastReaches (s : InodeLocks) (offset : Nat) : Prop :=
  ∀ q ∈ (s.pending.takeWhile fun q => decide (q.start < offset)).dropLast, q.stop ≤ offset

/-- The requests that the search of a range leaves in the queue lie outside of it. -/
theorem Valid.outside_of_skipped (h : Valid limit s) {start stop : Nat}
    (reach : s.OnlyLastReaches start) {q : LockRange}
    (mem : q ∈ (s.gatherCandidates start stop).2.pending) : q.stop ≤ start ∨ stop < q.start := by
  rcases mem_append.mp mem with front | back
  · left
    refine reach q ?_
    rw [← SortedSeq.take_partitionPoint, dropLast_eq_take, take_take, length_take,
      min_eq_left (SortedSeq.partitionPoint_le_length _ _), min_eq_left (Nat.sub_le _ _)]
    exact front
  · right
    have sorted : s.pending.Pairwise fun a b =>
        (!decide (stop < b.start)) = true → (!decide (stop < a.start)) = true := by
      refine h.sorted.imp fun {a b} le starts => ?_
      have := Prod.Lex.monotone_fst _ _ le
      simp only [Bool.not_eq_true', decide_eq_false_iff_not, not_lt] at starts ⊢
      exact this.trans starts
    have behind : q ∈ s.pending.drop (LockRanges.lastTouched s.pending stop) :=
      drop_subset_drop_left _ (le_max_right _ _) back
    simpa using SortedSeq.not_before_of_mem_drop sorted behind

/-- A change of locks inside a range, in terms of the queue before it: the search of
the range comes to every request that reaches into it, no candidate gives up an
exclusive lock that its owner keeps, and none gives up the exclusive lock that an
earlier one asks for. -/
structure Searched (s : InodeLocks) (held : HeldMap) (start stop : Nat) : Prop where
  reach : s.OnlyLastReaches start
  raises : ∀ q ∈ (s.candidates start stop).middle, q.type = .shared →
    ∀ x, q.start ≤ x → x < q.stop → held x q.requester ≠ .exclusive
  keeps : (s.candidates start stop).middle.Pairwise LockRange.KeepsLock

/-- What was blocked outside the range where locks change is still blocked. -/
theorem Valid.skipped_blocked (h : Valid limit s) (asleep : s.Asleep) {start stop : Nat}
    (reach : s.OnlyLastReaches start)
    (same : ∀ x, x < start ∨ stop ≤ x → ∀ o, held x o = s.held x o) :
    ∀ q ∈ (s.gatherCandidates start stop).2.pending, held.Blocks q := by
  intro q mem
  have outside := h.outside_of_skipped reach mem
  obtain ⟨x, o, low, high, other, mode⟩ :=
    h.asleep_iff.mp asleep q ((mem_pending_iff start stop).mpr (.inr mem))
  refine ⟨x, o, low, high, other, ?_⟩
  rwa [same x (by omega)]

theorem Valid.manage_asleep (h : Valid limit s) {start stop : Nat}
    (wakes : Wakes s.held (s.candidates start stop).middle
      (s.gatherCandidates start stop).2.pending) :
    (s.manageLockTryLockPending start stop).1.Asleep := by
  have final := h.manageLockTryLockPending start stop
  rw [final.asleep_iff]
  exact (wakes.tryCandidates (h.gatherCandidates start stop)
    (h.candidates_waiting start stop)).2 fun _ mem => mem

/-- When nobody could be granted before the search, nobody can after it. -/
theorem Valid.manage_asleep_of_asleep (h : Valid limit s) (asleep : s.Asleep)
    (start stop : Nat) : (s.manageLockTryLockPending start stop).1.Asleep := by
  have blocked : ∀ q ∈ (s.candidates start stop).middle,
      (s.gatherCandidates start stop).2.active.fits q = false := fun q mem =>
    asleep q ((mem_pending_iff start stop).mpr (.inl mem))
  obtain ⟨active, -, members⟩ := tryCandidates_of_blocked (h.candidates_waiting start stop) blocked
  intro q mem
  have same : (s.manageLockTryLockPending start stop).1.active = s.active := active
  rw [same]
  exact asleep q ((mem_pending_iff start stop).mpr ((members q).mp mem))

/-- An owner's lock on a range is replaced by another mode.  The search matters only
when this takes something away. -/
def Released (s : InodeLocks) (start stop : Nat) (k : OwnerKey) (mode : Mode) : Prop :=
  (∃ x, start ≤ x ∧ x < stop ∧ ¬ s.held x k ≤ mode) →
    s.Searched (s.held.assign start stop k mode) start stop

theorem Valid.replace_asleep (h : Valid limit s) (asleep : s.Asleep) {active : LockRanges}
    {start stop : Nat} {k : OwnerKey} {mode : Mode} (next : Valid limit ⟨active, s.pending⟩)
    (held : active.heldMode = s.held.assign start stop k mode)
    (released : s.Released start stop k mode) :
    (InodeLocks.manageLockTryLockPending ⟨active, s.pending⟩ start stop).1.Asleep := by
  by_cases lowers : ∃ x, start ≤ x ∧ x < stop ∧ ¬ s.held x k ≤ mode
  · obtain ⟨reach, raises, keeps⟩ := released lowers
    rw [← held] at raises
    refine next.manage_asleep ⟨h.skipped_blocked asleep reach fun x outside o => ?_,
      fun q mem _ => raises q mem, keeps⟩
    show active.heldMode x o = s.held x o
    rw [held]
    exact if_neg (by omega)
  · -- nothing is taken away, so nobody could be granted before the search either
    refine next.manage_asleep_of_asleep (next.asleep_iff.mpr fun q mem => ?_) start stop
    refine (h.asleep_iff.mp asleep q mem).mono fun x o => ?_
    show s.held x o ≤ active.heldMode x o
    rw [held]
    push Not at lowers
    exact HeldMap.le_assign lowers x o

/-- The condition on an operation, in terms of the entry before it: of the requests
in front of a released range only the last reaches into it, and no candidate lowers a
lock. -/
def Wakeful (s : InodeLocks) : InodeOp → Prop
  | .lock call =>
      let start := call.start.toNat
      let stop := call.stop.toNat
      match call.oper with
      | .shared =>
          s.active.fits (call.range .shared) = true → s.Released start stop call.owner.key .shared
      | .exclusive => True
      | .unlock => s.Released start stop call.owner.key .none
      | .release =>
          (s.removePending (requestOf call.owner)).Released 0 maxOffset call.owner.key .none
      | .other => True
  | .clearSession sessionid =>
      let cancelled := s.removePending (requestOfSession sessionid)
      let range := (cancelled.unlock (fun o => o.sessionid == sessionid)).2
      range.1 < range.2 → cancelled.OnlyLastReaches range.1
  | .unlockInode => s.pending.Pairwise LockRange.KeepsLock
  | .removePending _ _ _ => True

/-- A request that does not fit waits, or is refused. -/
theorem Asleep.turnedAway (h : s.Asleep) {lock : LockRange}
    (blocked : s.active.fits lock = false) (nonblocking : Bool) :
    (if nonblocking then s else s.enqueue lock).Asleep := by
  cases nonblocking with
  | false =>
    intro q mem
    rcases mem_enqueue.mp mem with rfl | mem
    · exact blocked
    · exact h q mem
  | true => exact h

theorem Valid.lockOperation_asleep (h : Valid limit s) (asleep : s.Asleep)
    {call : LockCall} (inLimit : call.start.toNat ≤ limit)
    (wakeful : s.Wakeful (.lock call)) : (s.lockOperation call).1.Asleep := by
  unfold Wakeful at wakeful
  unfold InodeLocks.lockOperation
  split
  next oper =>
    simp only [oper] at wakeful
    rcases h.apply_cases (call.waiting_range inLimit (.inl ⟨oper, rfl⟩))
      call.nonblocking with ⟨fits, applied, next, held⟩ | ⟨blocked, -, applied, next⟩
    · rw [applied]
      exact h.replace_asleep asleep next held (wakeful fits)
    · rw [applied]
      exact next.manage_asleep_of_asleep (asleep.turnedAway blocked _) _ _
  next oper =>
    rcases h.apply_cases (call.waiting_range inLimit (.inr ⟨oper, rfl⟩))
      call.nonblocking with ⟨fits, applied, next, held⟩ | ⟨blocked, -, applied, next⟩
    · simp only [applied]
      rw [next.asleep_iff, held]
      intro q mem
      exact ((h.asleep_iff.mp asleep) q mem).mono
        (HeldMap.le_assign fun x _ _ => Mode.le_exclusive _)
    · simp only [applied]
      exact asleep.turnedAway blocked _
  next oper =>
    simp only [oper] at wakeful
    obtain ⟨applied, next, held⟩ := h.apply_unlock (call.range .unlock) rfl rfl false
    rw [applied]
    exact h.replace_asleep asleep next held wakeful
  next oper =>
    simp only [oper] at wakeful
    have cancelled := h.removePending (requestOf call.owner)
    obtain ⟨applied, next, held⟩ := cancelled.apply_unlock call.releaseRange rfl rfl false
    dsimp only
    rw [applied]
    exact cancelled.replace_asleep (fun q mem => asleep q (mem_removePending.mp mem).1) next held
      wakeful
  · exact asleep

theorem Valid.clearSession_asleep (h : Valid limit s) (asleep : s.Asleep)
    {sessionid : Nat} (wakeful : s.Wakeful (.clearSession sessionid)) :
    (s.locksClearSession sessionid).1.Asleep := by
  have cancelled := h.removePending (requestOfSession sessionid)
  have waits : (s.removePending (requestOfSession sessionid)).Asleep :=
    fun q mem => asleep q (mem_removePending.mp mem).1
  obtain ⟨released, held⟩ := cancelled.unlock
    (fun o => o.sessionid == sessionid) (fun k => sessionOf k == sessionid) (fun _ => rfl)
  have same := without_of_not_affected (s := s.removePending (requestOfSession sessionid))
    (fun o => o.sessionid == sessionid) (fun k => sessionOf k == sessionid) (fun _ => rfl)
  unfold InodeLocks.locksClearSession
  simp only
  split
  next affected =>
    rw [(released.gatherCandidates _ _).asleep_iff, held_gatherCandidates, held]
    exact cancelled.skipped_blocked waits (wakeful affected) same
  next nothing =>
    rw [released.asleep_iff, held, show without _ _ = _ from
      funext fun x => funext (same x (by omega))]
    exact cancelled.asleep_iff.mp waits

theorem Valid.unlockInode_asleep (h : Valid limit s)
    (wakeful : s.Wakeful .unlockInode) : (s.locksUnlockInode limit).1.Asleep := by
  obtain ⟨all, nothing⟩ := h.unlockAll.gatherCandidates_all
  apply h.unlockAll.manage_asleep
  rw [all, nothing]
  refine ⟨fun q mem => absurd mem not_mem_nil, ?_, wakeful⟩
  intro q _ _ _ x _ _ exclusive
  cases exclusive

/-- An operation that wakes keeps everybody in the queue excluded. -/
theorem Valid.step_asleep (h : Valid limit s) (asleep : s.Asleep) {op : InodeOp}
    (inLimit : op.InLimit limit) (wakeful : s.Wakeful op) : (s.step limit op).1.Asleep := by
  cases op with
  | lock call => exact h.lockOperation_asleep asleep inLimit wakeful
  | clearSession sessionid => exact h.clearSession_asleep asleep wakeful
  | unlockInode => exact h.unlockInode_asleep wakeful
  | removePending ownerid sessionid reqid =>
    exact fun q mem => asleep q (mem_removePending.mp mem).1

end InodeLocks

namespace LockTables

/-- The condition on an event, in terms of the tables before it. -/
def Wakeful (tables : LockTables) (event : LockEvent) : Prop :=
  match event.target with
  | none => True
  | some (kind, inode, op) => (tables.table kind inode).Wakeful op

/-- Nobody waits who could be granted. -/
def Asleep (tables : LockTables) : Prop :=
  ∀ kind inode, (tables.table kind inode).Asleep

theorem step_asleep {tables : LockTables} (h : tables.Valid) (asleep : tables.Asleep)
    {event : LockEvent} (wakeful : tables.Wakeful event) : (tables.step event).Asleep := by
  rcases tables.step_cases event with
    ⟨same, -⟩ | ⟨kind, inode, op, target, inLimit, next, -⟩
  · rw [same]
    exact asleep
  have opWakeful : (tables.table kind inode).Wakeful op := by
    simpa [Wakeful, target] using wakeful
  intro other node
  rw [next, table_set]
  split
  · exact (h kind inode).step_asleep (asleep kind inode) inLimit opWakeful
  · exact asleep other node

/-- In a run from empty tables in which every event wakes whom it makes possible,
every request that still waits conflicts with an active lock. -/
theorem waiting_conflicts {events : List LockEvent}
    (along : StepSystem.Along step Wakeful empty events)
    (kind : LockKind) (inode : Nat) :
    ∀ q ∈ ((run step empty events).table kind inode).pending,
      ((run step empty events).table kind inode).active.fits q =
        false := by
  have invariant : (run step empty events).Valid ∧
      (run step empty events).Asleep := by
    refine invariant_run (P := fun tables => tables.Valid ∧ tables.Asleep)
      (fun tables event holds wakeful =>
        ⟨holds.1.step event, step_asleep holds.1 holds.2 wakeful⟩) ⟨Valid.empty, ?_⟩ along
    intro kind inode q member
    cases kind <;> exact absurd member not_mem_nil
  exact invariant.2 kind inode

/-- Two owners wait.  When the lock they wait for is given back, the first of them is
granted, and the second goes on waiting for the first. -/
def handover : List LockEvent :=
  [ .posixLockOperation 1 true
      { start := 4, stop := 10, owner := ⟨1, 1, 0, 0⟩, oper := .exclusive,
        nonblocking := false, nonempty := fun _ => by decide },
    .posixLockOperation 1 true
      { start := 0, stop := 6, owner := ⟨2, 2, 7, 8⟩, oper := .exclusive,
        nonblocking := false, nonempty := fun _ => by decide },
    .posixLockOperation 1 true
      { start := 5, stop := 8, owner := ⟨3, 3, 9, 9⟩, oper := .exclusive,
        nonblocking := false, nonempty := fun _ => by decide },
    .posixLockOperation 1 true
      { start := 4, stop := 10, owner := ⟨1, 1, 0, 0⟩, oper := .unlock,
        nonblocking := false, nonempty := fun _ => by decide } ]

/-- The handover meets the condition, and the request that still waits conflicts with
the lock that was granted. -/
theorem waiting_conflicts_handover :
    Along step Wakeful empty handover ∧
      ((run step empty handover).table .posix 1).pending = [.single .exclusive 5 8 ⟨3, 3, 9, 9⟩] ∧
      ((run step empty handover).table .posix 1).active.data =
        [.single .exclusive 0 6 ⟨2, 2, 7, 8⟩] ∧
      ∀ kind inode, ∀ q ∈ ((run step empty handover).table kind inode).pending,
        ((run step empty handover).table kind inode).active.fits q = false := by
  have along : Along step Wakeful empty handover := by
    refine ⟨trivial, trivial, trivial, fun _ => ⟨?_, ?_, ?_⟩, trivial⟩
    · exact fun q member => absurd member not_mem_nil
    · intro q member shared
      have exclusive : ∀ q ∈ [LockRange.single .exclusive 0 6 ⟨2, 2, 7, 8⟩,
          .single .exclusive 5 8 ⟨3, 3, 9, 9⟩], q.type = .exclusive := by decide
      exact absurd (exclusive q member) (by simp [shared])
    · refine pairwise_pair.mpr ?_
      intro _ shared
      cases shared
  exact ⟨along, by decide, by decide, waiting_conflicts along⟩

/-- Two owners wait for `[40, 50)`.  The longer request `[0, 45)` is two places in
front of the released range in the queue, and the search steps back only one. -/
def skippedWaiter : List LockEvent :=
  [ .posixLockOperation 1 true
      { start := 40, stop := 50, owner := ⟨1, 1, 0, 0⟩, oper := .exclusive,
        nonblocking := false, nonempty := fun _ => by decide },
    .posixLockOperation 1 true
      { start := 55, stop := 56, owner := ⟨2, 2, 0, 0⟩, oper := .exclusive,
        nonblocking := false, nonempty := fun _ => by decide },
    .posixLockOperation 1 true
      { start := 0, stop := 45, owner := ⟨3, 3, 1, 1⟩, oper := .exclusive,
        nonblocking := false, nonempty := fun _ => by decide },
    .posixLockOperation 1 true
      { start := 30, stop := 60, owner := ⟨4, 4, 1, 1⟩, oper := .exclusive,
        nonblocking := false, nonempty := fun _ => by decide },
    .posixLockOperation 1 true
      { start := 40, stop := 50, owner := ⟨1, 1, 0, 0⟩, oper := .unlock,
        nonblocking := false, nonempty := fun _ => by decide } ]

/-- After the unlock the request for `[0, 45)` conflicts with nothing, and is left
in the queue. -/
theorem skippedWaiter_left_asleep :
    ∃ q ∈ ((run step empty skippedWaiter).table
        .posix 1).pending,
      ((run step empty skippedWaiter).table
        .posix 1).active.fits q = true := by
  refine ⟨.single .exclusive 0 45 ⟨3, 3, 1, 1⟩, ?_, ?_⟩
  · decide
  · decide

end LockTables

end LeilFS.Locks
