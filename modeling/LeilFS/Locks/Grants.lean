/-
Module: LeilFS.Locks.Grants
Purpose: When the owners reported as granted hold their locks, and no waiting
  request is lost.
Trusted boundary: none
-/
import LeilFS.Locks.Wakeup

namespace LeilFS.Locks

open LockTables List InodeLocks

/-!
The owners an operation reports are answered with success.  Such an answer is right
when the owner's waiting request is covered by its active locks after the whole
operation, also after the candidates tried later.  What can take a grant back is a
later shared candidate of the same owner over an exclusive one; what reports
without granting is the release of a session.
-/

/-- The owner of the request holds all of its offsets, in the requested mode or a
stronger one. -/
def HeldMap.Covered (held : HeldMap) (range : LockRange) : Prop :=
  ∀ x, range.start ≤ x → x < range.stop → range.type.mode ≤ held x range.requester

theorem HeldMap.Covered.assign_self (held : HeldMap) (range : LockRange) :
    (held.assign range.start range.stop range.requester range.type.mode).Covered range := by
  intro x low high
  unfold HeldMap.assign
  rw [if_pos ⟨low, high, rfl⟩]

theorem HeldMap.Covered.assign {held : HeldMap} {first second : LockRange} (h : held.Covered first)
    (keeps : first.KeepsLock second) (locking : second.type = .shared ∨ second.type = .exclusive) :
    (held.assign second.start second.stop second.requester second.type.mode).Covered first := by
  intro x low high
  unfold HeldMap.assign
  split
  next inside =>
    rcases locking with type | type
    · rw [type]
      cases firstType : first.type with
      | exclusive =>
        have apart := keeps firstType type inside.2.2
        simp only [LockRange.overlaps, Bool.and_eq_false_iff, decide_eq_false_iff_not] at apart
        omega
      | invalid => exact Mode.none_le _
      | unlock => exact Mode.none_le _
      | shared => exact le_rfl
    · rw [type]
      exact Mode.le_exclusive _
  · exact h x low high

namespace InodeLocks

variable {limit : Nat} {s : InodeLocks}

/-- Trying candidates keeps the lock of a request that none of them downgrades. -/
theorem Valid.tryCandidates_covered (valid : Valid limit s) {queue : List LockRange}
    (waiting : ∀ q ∈ queue, q.Waiting limit) {range : LockRange}
    (h : s.held.Covered range) (keeps : ∀ q ∈ queue, range.KeepsLock q) :
    (s.tryCandidates queue).1.held.Covered range := by
  refine (valid.tryCandidates_keeps waiting (P := (·.held.Covered range)) h ?_ ?_).2
  · intro q mem now next h _ held
    rw [held]
    exact h.assign (keeps q mem) (waiting q mem).locking
  · exact fun _ _ _ h => h

theorem Valid.tryCandidates_keeps_pending (h : Valid limit s) {queue : List LockRange}
    (waiting : ∀ q ∈ queue, q.Waiting limit) :
    ∀ q ∈ s.pending, q ∈ (s.tryCandidates queue).1.pending := by
  intro q waits
  refine (h.tryCandidates_keeps waiting (P := (q ∈ ·.pending)) waits ?_ ?_).2
  · exact fun _ _ _ _ waits pending _ => pending ▸ waits
  · exact fun _ _ _ waits => mem_enqueue.mpr (.inr waits)

theorem tryCandidates_append (first second : List LockRange) : s.tryCandidates (first ++ second) =
      (((s.tryCandidates first).1.tryCandidates second).1,
        (s.tryCandidates first).2 ++ ((s.tryCandidates first).1.tryCandidates second).2) := by
  induction first generalizing s with
  | nil => simp [tryCandidates]
  | cons cand first ih =>
    simp only [cons_append, tryCandidates, ih]
    split <;> simp

theorem apply_success (nonblocking : Bool) (lock : LockRange) :
    (s.apply lock nonblocking).2 = s.active.fits lock := by
  unfold apply
  split
  next fits => exact fits.symm
  next blocked => split <;> simpa using blocked

/-- A reported owner is the owner of a candidate that fitted when its turn came. -/
theorem mem_applied {queue : List LockRange} {o : Owner} (mem : o ∈ (s.tryCandidates queue).2) :
    ∃ front q back, queue = front ++ q :: back ∧ o ∈ q.owners ∧
      (s.tryCandidates front).1.active.fits q = true := by
  induction queue generalizing s with
  | nil => simp [tryCandidates] at mem
  | cons cand rest ih =>
    have later (inRest : o ∈ ((s.apply cand false).1.tryCandidates rest).2) :
        ∃ front q back, cand :: rest = front ++ q :: back ∧ o ∈ q.owners ∧
          (s.tryCandidates front).1.active.fits q = true := by
      obtain ⟨front, q, back, split, owner, fits⟩ := ih inRest
      refine ⟨cand :: front, q, back, by rw [split]; rfl, owner, ?_⟩
      simpa [tryCandidates] using fits
    simp only [tryCandidates] at mem
    split at mem
    next success =>
      rw [apply_success] at success
      rcases mem_append.mp mem with mine | inRest
      · exact ⟨[], cand, rest, rfl, mine, success⟩
      · exact later inRest
    · exact later mem

/-- The turn of one candidate: it is granted, for good when no later candidate
downgrades it, or it is back in the queue. -/
theorem Valid.tryCandidates_turn (h : Valid limit s) {front back : List LockRange}
    {q : LockRange} (waiting : ∀ c ∈ front ++ q :: back, c.Waiting limit)
    (keeps : ∀ d ∈ back, q.KeepsLock d) : ((s.tryCandidates front).1.active.fits q = true ∧
        (s.tryCandidates (front ++ q :: back)).1.held.Covered q) ∨
      ((s.tryCandidates front).1.active.fits q = false ∧
        q ∈ (s.tryCandidates (front ++ q :: back)).1.pending) := by
  have frontValid : Valid limit (s.tryCandidates front).1 :=
    h.tryCandidates fun c mem => waiting c (by simp [mem])
  have backWaiting : ∀ c ∈ back, c.Waiting limit := fun c mem =>
    waiting c (by simp [mem])
  rw [tryCandidates_append]
  rcases frontValid.apply_cases (waiting q (by simp)) false with
    ⟨fits, applied, next, held⟩ | ⟨blocked, -, applied, next⟩
  · left
    refine ⟨fits, ?_⟩
    simp only [InodeLocks.tryCandidates, applied]
    exact next.tryCandidates_covered backWaiting (held ▸ HeldMap.Covered.assign_self _ q) keeps
  · right
    refine ⟨blocked, ?_⟩
    simp only [InodeLocks.tryCandidates, applied]
    exact next.tryCandidates_keeps_pending backWaiting q (mem_enqueue.mpr (.inl rfl))

/-- Every candidate is granted for good or back in the queue, and every reported
owner is the owner of a candidate that was granted for good. -/
theorem Valid.tryCandidates_grants (h : Valid limit s) {queue : List LockRange}
    (waiting : ∀ q ∈ queue, q.Waiting limit) (keeps : queue.Pairwise LockRange.KeepsLock) :
    (∀ q ∈ queue, q ∈ (s.tryCandidates queue).1.pending ∨
        (s.tryCandidates queue).1.held.Covered q) ∧
      ∀ o ∈ (s.tryCandidates queue).2, ∃ front q back, queue = front ++ q :: back ∧
        o ∈ q.owners ∧ (s.tryCandidates front).1.active.fits q = true ∧
        (s.tryCandidates queue).1.held.Covered q := by
  have keepsBack {front back : List LockRange} {q : LockRange}
      (split : queue = front ++ q :: back) : ∀ d ∈ back, q.KeepsLock d := by
    rw [split, pairwise_append, pairwise_cons] at keeps
    exact keeps.2.1.1
  constructor
  · intro q mem
    obtain ⟨front, back, split⟩ := append_of_mem mem
    have turn := h.tryCandidates_turn (split ▸ waiting) (keepsBack split)
    rw [← split] at turn
    exact (turn.imp And.right And.right).symm
  · intro o mem
    obtain ⟨front, q, back, split, owner, fits⟩ := mem_applied mem
    refine ⟨front, q, back, split, owner, fits, ?_⟩
    have turn := h.tryCandidates_turn (split ▸ waiting) (keepsBack split)
    rw [← split] at turn
    rcases turn with ⟨-, covered⟩ | ⟨blocked, -⟩
    · exact covered
    · rw [fits] at blocked
      cases blocked

/-- The property of one operation: every reported owner had a waiting request that
its locks cover now, and every waiting request that was not cancelled is covered or
still waits. -/
structure Grants (before after : InodeLocks) (applied : List Owner)
    (cancels : LockRange → Bool) : Prop where
  granted : ∀ o ∈ applied, ∃ q ∈ before.pending, o ∈ q.owners ∧ after.held.Covered q
  conserved : ∀ q ∈ before.pending, cancels q = false →
    q ∈ after.pending ∨ after.held.Covered q

/-- The waiting requests that an operation cancels. -/
def cancels : InodeOp → LockRange → Bool
  | .lock call, q =>
      call.oper == .release && requestOf call.owner q
  | .clearSession sessionid, q => requestOfSession sessionid q
  | .unlockInode, _ => false
  | .removePending ownerid sessionid reqid, q => ownerIs (fun o =>
      o.owner == ownerid && o.sessionid == sessionid && o.reqid == reqid) q

/-- No shared request that is tried before this one gives up an exclusive lock of its
owner. -/
def RaisesBefore (held : HeldMap) (candidates : List LockRange) (range : LockRange) : Prop :=
  ∀ front back, candidates = front ++ range :: back → ∀ q ∈ front, q.type = .shared →
    ∀ x, q.start ≤ x → x < q.stop → held x q.requester ≠ .exclusive

/-- The condition on an operation, in terms of the entry before it: no tried
candidate downgrades an earlier one, a request that joins the queue does not come
behind one that gives up an exclusive lock of its own owner, and the release of a
session finds no candidate. -/
def KeepsGrants (s : InodeLocks) : InodeOp → Prop
  | .lock call =>
      let start := call.start.toNat
      let stop := call.stop.toNat
      match call.oper with
      | .shared =>
          let range := call.range .shared
          if s.active.fits range ∨ call.nonblocking then
            (s.candidates start stop).middle.Pairwise LockRange.KeepsLock
          else
            let tried := ((s.enqueue range).candidates start stop).middle
            tried.Pairwise LockRange.KeepsLock ∧ RaisesBefore s.held tried range
      | .exclusive => True
      | .unlock => (s.candidates start stop).middle.Pairwise LockRange.KeepsLock
      | .release =>
          let cancelled := s.removePending (requestOf call.owner)
          (cancelled.candidates 0 maxOffset).middle.Pairwise LockRange.KeepsLock
      | .other => True
  | .clearSession sessionid =>
      let cancelled := s.removePending (requestOfSession sessionid)
      let range := (cancelled.unlock (fun o => o.sessionid == sessionid)).2
      range.1 < range.2 → (cancelled.candidates range.1 range.2).middle = []
  | .unlockInode => s.pending.Pairwise LockRange.KeepsLock
  | .removePending _ _ _ => True

/-- The search after an operation, seen from the entry `before` it: `s` is the entry
with the operation's own change, which cancelled some waiting requests and may have
queued its own request, which the search does not grant. -/
theorem Valid.manage_grants (h : Valid limit s) {before : InodeLocks}
    {start stop : Nat} {cancels : LockRange → Bool}
    (kept : ∀ q ∈ before.pending, cancels q = false → q ∈ s.pending)
    (old : ∀ front q back, (s.candidates start stop).middle = front ++ q :: back →
      ((s.gatherCandidates start stop).2.tryCandidates front).1.active.fits q = true →
        q ∈ before.pending)
    (keeps : (s.candidates start stop).middle.Pairwise LockRange.KeepsLock) :
    Grants before (s.manageLockTryLockPending start stop).1
      (s.manageLockTryLockPending start stop).2 cancels := by
  have rest := h.gatherCandidates start stop
  have waiting := h.candidates_waiting start stop
  obtain ⟨conserved, granted⟩ := rest.tryCandidates_grants waiting keeps
  constructor
  · intro o mem
    obtain ⟨front, q, back, split, owner, fits, covered⟩ := granted o mem
    exact ⟨q, old front q back split fits, owner, covered⟩
  · intro q mem notCancelled
    rcases (mem_pending_iff start stop).mp (kept q mem notCancelled) with tried | left
    · exact conserved q tried
    · exact .inl (rest.tryCandidates_keeps_pending waiting q left)

/-- The queue was not added to before the search. -/
theorem Valid.manage_grants_of_subset (h : Valid limit s) {before : InodeLocks} {start stop : Nat}
    {cancels : LockRange → Bool} (kept : ∀ q ∈ before.pending, cancels q = false → q ∈ s.pending)
    (subset : ∀ q ∈ s.pending, q ∈ before.pending)
    (keeps : (s.candidates start stop).middle.Pairwise LockRange.KeepsLock) :
    Grants before (s.manageLockTryLockPending start stop).1
      (s.manageLockTryLockPending start stop).2 cancels := by
  refine h.manage_grants kept (fun front q back split _ => subset q ?_) keeps
  exact (mem_pending_iff start stop).mpr (.inl (by simp [split]))

/-- A request that joins the queue is still blocked when its own turn comes. -/
theorem Valid.manage_grants_enqueue (h : Valid limit s) {range : LockRange}
    (waiting : range.Waiting limit) (blocked : s.held.Blocks range) {start stop : Nat}
    {cancels : LockRange → Bool}
    (keeps : ((s.enqueue range).candidates start stop).middle.Pairwise LockRange.KeepsLock)
    (raises : RaisesBefore s.held ((s.enqueue range).candidates start stop).middle range) :
    Grants s ((s.enqueue range).manageLockTryLockPending start stop).1
      ((s.enqueue range).manageLockTryLockPending start stop).2 cancels := by
  have next := h.enqueue waiting
  have rest := next.gatherCandidates start stop
  refine next.manage_grants (fun q mem _ => mem_enqueue.mpr (.inr mem)) ?_ keeps
  intro front q back split fits
  have tried : ∀ c ∈ front, c.Waiting limit := fun c mem =>
    next.candidates_waiting start stop c (by rw [split]; simp [mem])
  have mem : q ∈ (s.enqueue range).pending :=
    (mem_pending_iff start stop).mpr (.inl (by rw [split]; simp))
  refine (mem_enqueue.mp mem).resolve_left ?_
  rintro rfl
  have wakes : Wakes s.held front [q] :=
    ⟨by simpa using blocked, fun other mem _ => raises front back split other mem,
      (pairwise_append.mp (split ▸ keeps)).1⟩
  have blocked := (wakes.tryCandidates rest tried).1 q (by simp)
  have stillBlocked := ((rest.tryCandidates tried).active.fits_eq_false_iff
    waiting.request waiting.not_unlock).mpr blocked
  rw [fits] at stillBlocked
  cases stillBlocked

theorem Valid.lockOperation_grants (h : Valid limit s) {call : LockCall}
    (inLimit : call.start.toNat ≤ limit) (keeps : s.KeepsGrants (.lock call)) :
    Grants s (s.step limit (.lock call)).1 (s.step limit (.lock call)).2
      (cancels (.lock call)) := by
  have nobody {s' : InodeLocks} (same : ∀ q ∈ s.pending, q ∈ s'.pending) :
      Grants s s' [] (cancels (.lock call)) :=
    ⟨fun o mem => absurd mem not_mem_nil, fun q mem _ => .inl (same q mem)⟩
  unfold KeepsGrants at keeps
  simp only [InodeLocks.step, InodeLocks.lockOperation]
  cases oper : call.oper with
  | shared =>
    simp only [oper] at keeps
    have waiting := call.waiting_range inLimit (.inl ⟨oper, rfl⟩)
    rcases h.apply_cases waiting call.nonblocking with
      ⟨fits, applied, next, -⟩ | ⟨unfit, blocked, applied, -⟩
    · rw [if_pos (.inl fits)] at keeps
      rw [applied]
      exact next.manage_grants_of_subset (fun q mem _ => mem) (fun q mem => mem) keeps
    rw [applied]
    cases nonblocking : call.nonblocking with
    | true =>
      rw [if_pos (.inr nonblocking)] at keeps
      exact h.manage_grants_of_subset (fun q mem _ => mem)
        (fun q mem => mem) keeps
    | false =>
      rw [if_neg (by simp [unfit, nonblocking])] at keeps
      exact h.manage_grants_enqueue waiting blocked keeps.1 keeps.2
  | exclusive =>
    have waiting := call.waiting_range inLimit (.inr ⟨oper, rfl⟩)
    rcases h.apply_cases waiting call.nonblocking with
      ⟨-, applied, -, -⟩ | ⟨-, -, applied, -⟩
    · simp only [applied]
      exact nobody fun q mem => mem
    · simp only [applied]
      cases call.nonblocking with
      | true => exact nobody fun q mem => mem
      | false => exact nobody fun q mem => mem_enqueue.mpr (.inr mem)
  | unlock =>
    simp only [oper] at keeps
    obtain ⟨applied, next, -⟩ := h.apply_unlock (call.range .unlock) rfl rfl false
    exact next.manage_grants_of_subset (fun q mem _ => mem) (fun q mem => mem) keeps
  | release =>
    simp only [oper] at keeps
    obtain ⟨applied, next, -⟩ := (h.removePending (requestOf call.owner)).apply_unlock
        call.releaseRange rfl rfl false
    refine next.manage_grants_of_subset ?_ (fun q mem => (mem_removePending.mp mem).1) keeps
    intro q mem notCancelled
    refine mem_removePending.mpr ⟨mem, ?_⟩
    simpa [cancels, oper] using notCancelled
  | other => exact nobody fun q mem => mem

theorem clearSession_grants {sessionid : Nat} (keeps : s.KeepsGrants (.clearSession sessionid)) :
    Grants s (s.locksClearSession sessionid).1 (s.locksClearSession sessionid).2
      (cancels (.clearSession sessionid)) := by
  have stays {q : LockRange} (mem : q ∈ s.pending)
      (notCancelled : cancels (.clearSession sessionid) q = false) :
      q ∈ (s.removePending (requestOfSession sessionid)).pending :=
    mem_removePending.mpr ⟨mem, notCancelled⟩
  unfold locksClearSession
  simp only
  split
  next affected =>
    have nobody := keeps affected
    have untried (q : LockRange) : q ∉ (((s.removePending (requestOfSession sessionid)).unlock
          (fun o => o.sessionid == sessionid)).1.candidates _ _).middle := fun tried =>
      not_mem_nil (nobody ▸ tried)
    constructor
    · intro o mem
      obtain ⟨q, tried, -⟩ := mem_flatMap.mp mem
      exact absurd tried (untried q)
    · intro q mem notCancelled
      exact .inl (Or.resolve_left ((mem_pending_iff _ _).mp (stays mem notCancelled)) (untried q))
  · exact ⟨fun o mem => absurd mem not_mem_nil,
      fun q mem notCancelled => .inl (stays mem notCancelled)⟩

theorem Valid.step_grants (h : Valid limit s) {op : InodeOp}
    (inLimit : op.InLimit limit) (keeps : s.KeepsGrants op) :
    Grants s (s.step limit op).1 (s.step limit op).2 (cancels op) := by
  cases op with
  | lock call => exact h.lockOperation_grants inLimit keeps
  | clearSession sessionid => exact clearSession_grants keeps
  | unlockInode =>
    have all := h.unlockAll.gatherCandidates_all.1
    exact h.unlockAll.manage_grants_of_subset (fun q mem _ => mem)
      (fun q mem => mem) (all ▸ keeps)
  | removePending ownerid sessionid reqid =>
    exact ⟨fun o mem => absurd mem not_mem_nil, fun q mem notCancelled =>
        .inl (mem_removePending.mpr ⟨mem, notCancelled⟩)⟩

end InodeLocks

namespace LockTables

/-- The condition on an event, in terms of the tables before it. -/
def KeepsGrants (tables : LockTables) (event : LockEvent) : Prop :=
  match event.target with
  | none => True
  | some (kind, inode, op) => (tables.table kind inode).KeepsGrants op

/-- The property of one event: the owners it reports hold the locks they waited
for, and it loses no waiting request. -/
def Grants (tables : LockTables) (event : LockEvent) : Prop :=
  match event.target with
  | none => tables.applied event = [] ∧ tables.step event = tables
  | some (kind, inode, op) =>
      InodeLocks.Grants (tables.table kind inode) ((tables.step event).table kind inode)
        (tables.applied event) (InodeLocks.cancels op)

/-- After any run, an event that meets the condition reports only owners that hold
their locks, and loses no waiting request. -/
theorem grants_of_keepsGrants (events : List LockEvent) (event : LockEvent)
    (keeps : (StepSystem.run step empty events).KeepsGrants event) :
    (StepSystem.run step empty events).Grants event := by
  have valid := valid_run events
  generalize StepSystem.run step empty events = tables at *
  unfold Grants
  cases target : event.target with
  | none => exact ⟨by simp [applied, target], by simp [step, target]⟩
  | some found =>
    obtain ⟨kind, inode, op⟩ := found
    have opKeeps : (tables.table kind inode).KeepsGrants op := by
      simpa [KeepsGrants, target] using keeps
    have grants := (valid kind inode).step_grants (LockEvent.target_inLimit target) opKeeps
    simpa [applied, step, target, table_set] using grants

/-- A waiting request is granted by the unlock it waited for. -/
theorem grants_of_keepsGrants_handover :
    (StepSystem.run step empty
        [ .posixLockOperation 1 true
            { start := 0, stop := 10, owner := ⟨1, 1, 0, 0⟩, oper := .exclusive,
              nonblocking := false, nonempty := fun _ => by decide },
          .posixLockOperation 1 true
            { start := 5, stop := 15, owner := ⟨2, 2, 7, 8⟩, oper := .exclusive,
              nonblocking := false, nonempty := fun _ => by decide } ]).Grants
      (.posixLockOperation 1 true
        { start := 0, stop := 10, owner := ⟨1, 1, 0, 0⟩, oper := .unlock,
          nonblocking := false, nonempty := fun _ => by decide }) :=
  grants_of_keepsGrants _ _ (pairwise_singleton _ _)

/-- A request for `[0, 10)`. -/
def firstTen (owner : Owner) (oper : LockOper) : LockEvent :=
  .posixLockOperation 1 true
    { start := 0, stop := 10, owner := owner, oper := oper, nonblocking := false,
      nonempty := fun _ => by decide }

/-- One session holds `[0, 10)` and two others wait for it exclusively. -/
def twoWaiters : List LockEvent :=
  [firstTen ⟨1, 1, 0, 0⟩ .exclusive, firstTen ⟨2, 2, 0, 5⟩ .exclusive,
    firstTen ⟨3, 3, 0, 6⟩ .exclusive]

/-- The release of the first session reports both waiting owners as granted.  Both
are out of the queue then, and neither of them holds the lock. -/
theorem clearSession_reports_without_granting :
    ¬ (StepSystem.run step empty twoWaiters).Grants
      (.locksClearSession .posix 1 1) := by
  intro grants
  have reported : (⟨2, 2, 0, 5⟩ : Owner) ∈
      (StepSystem.run step empty twoWaiters).applied
        (.locksClearSession .posix 1 1) := by decide
  obtain ⟨q, member, -, covered⟩ := grants.granted _ reported
  have requests : ∀ q ∈ ((StepSystem.run step empty
      twoWaiters).table .posix 1).pending,
        q.type = .exclusive ∧ q.start = 0 ∧ q.stop = 10 := by decide
  obtain ⟨type, start, stop⟩ := requests q member
  have nothing : (((StepSystem.run step empty twoWaiters).step
      (.locksClearSession .posix 1 1)).table .posix 1).active = LockRanges.empty := by
    decide
  have held := covered 0 (by omega) (by omega)
  rw [type, InodeLocks.held, nothing] at held
  have none : LockRanges.empty.heldMode 0 q.requester = .none := rfl
  rw [none] at held
  exact absurd held (by decide)

end LockTables

end LeilFS.Locks
