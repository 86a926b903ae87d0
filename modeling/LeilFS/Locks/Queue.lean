/-
Module: LeilFS.Locks.Queue
Purpose: The invariant of the locks of an inode, and what every operation does to
  its held map and its queue.
Trusted boundary: none
-/
import LeilFS.Lib.StepSystem
import LeilFS.Locks.FileLocks
import LeilFS.Locks.Insert

namespace LeilFS.Locks

open LockRange List SortedSeq
open LockRanges (lastTouched firstTouched insert cursor)

/-!
Whether a request fits is a question about the held map alone: it waits exactly
when some other owner holds one of its offsets in a conflicting mode.  Modes are
ordered, and a request that waits keeps waiting when modes only go up.
-/

/-- Strength of a mode. -/
def Mode.rank : Mode → Nat
  | .none => 0
  | .shared => 1
  | .exclusive => 2

instance : LinearOrder Mode :=
  LinearOrder.lift' Mode.rank (by intro a b; cases a <;> cases b <;> simp [Mode.rank])

theorem Mode.le_iff (a b : Mode) : a ≤ b ↔ a.rank ≤ b.rank := Iff.rfl

theorem Mode.none_le (m : Mode) : Mode.none ≤ m := by
  exact Nat.zero_le _

theorem Mode.le_exclusive (m : Mode) : m ≤ Mode.exclusive := by
  cases m <;> decide

theorem Mode.eq_none_of_le {m : Mode} (le : m ≤ Mode.none) : m = Mode.none :=
  le_antisymm le (Mode.none_le m)

theorem Mode.eq_exclusive_of_le {m : Mode} (le : Mode.exclusive ≤ m) : m = Mode.exclusive :=
  le_antisymm (Mode.le_exclusive m) le

/-- The only owner of a request. -/
def LockRange.requester (range : LockRange) : OwnerKey :=
  match range.owners with
  | owner :: _ => owner.key
  | [] => toLex (0, 0)

variable {range : LockRange} {k : OwnerKey} {locks : LockRanges} {limit : Nat}

theorem LockRange.Request.requester_eq (req : range.Request k) : range.requester = k := by
  have owner := req.owner
  unfold requester
  cases owners : range.owners with
  | nil => simp [keys, owners] at owner
  | cons first rest =>
    simp only [keys, owners, map_cons, List.cons.injEq] at owner
    exact owner.1

namespace HeldMap

/-- Another owner holds an offset of the range in a mode that excludes it. -/
def Blocks (held : HeldMap) (range : LockRange) : Prop :=
  ∃ x o, range.start ≤ x ∧ x < range.stop ∧ o ≠ range.requester ∧
    (held x o = .exclusive ∨ (range.type = .exclusive ∧ held x o ≠ .none))

/-- What blocks a request keeps blocking it when modes only go up. -/
theorem Blocks.mono {held held' : HeldMap} {range : LockRange}
    (h : held.Blocks range) (le : ∀ x o, held x o ≤ held' x o) : held'.Blocks range := by
  obtain ⟨x, o, low, high, other, mode⟩ := h
  refine ⟨x, o, low, high, other, ?_⟩
  have up := le x o
  rcases mode with exclusive | ⟨exclusive, held⟩
  · left
    exact Mode.eq_exclusive_of_le (exclusive ▸ up)
  · right
    exact ⟨exclusive, fun none => held (Mode.eq_none_of_le (none ▸ up))⟩

/-- Assigning a mode that is nowhere lower than the owner's raises the map. -/
theorem le_assign {held : HeldMap} {start stop : Nat} {k : OwnerKey} {mode : Mode}
    (up : ∀ x, start ≤ x → x < stop → held x k ≤ mode) (x : Nat) (o : OwnerKey) :
    held x o ≤ held.assign start stop k mode x o := by
  unfold assign
  split
  next inside =>
    obtain ⟨low, high, rfl⟩ := inside
    exact up x low high
  · exact le_rfl

theorem assign_empty (held : HeldMap) {start stop : Nat} (empty : stop ≤ start)
    (k : OwnerKey) (mode : Mode) : held.assign start stop k mode = held := by
  funext x o
  unfold assign
  rw [if_neg]
  omega

end HeldMap

namespace LockRanges

variable {locks : LockRanges}

/-- Where a sound table says something, one of its ranges says it. -/
theorem exists_of_heldMode_ne_none {x : Nat} {o : OwnerKey} (held : locks.heldMode x o ≠ .none) :
    ∃ r ∈ locks.data, r.Gives x o r.type ∧ locks.heldMode x o = r.type.mode := by
  revert held
  unfold heldMode
  split
  next found search =>
    intro _
    have covered : found.covers x o = true := by simpa using find?_some search
    exact ⟨found, mem_of_find?_eq_some search, (covers_iff found x o).mp covered, rfl⟩
  · intro held
    exact absurd rfl held

end LockRanges

theorem LockRange.Sound.exclusive_keys {r : LockRange} (h : r.Sound)
    (exclusive : r.type = .exclusive) : ∃ o, r.keys = [o] := by
  have length : r.keys.length = 1 := by
    simpa [keys] using h.exclusiveOwner exclusive
  exact length_eq_one_iff.mp length

/-- A request for a lock does not fit exactly when the held map blocks it. -/
theorem LockRanges.Sound.fits_eq_false_iff (h : locks.Sound) (req : range.Request k)
    (locking : range.type ≠ .unlock) : locks.fits range = false ↔ locks.heldMode.Blocks range := by
  have requester := req.requester_eq
  rw [Bool.eq_false_iff, ne_eq, h.fits_iff req]
  push Not
  constructor
  · rintro ⟨other, mem, overlap, conflict⟩
    have otherSound := h.ranges other mem
    simp only [overlaps, Bool.and_eq_true, decide_eq_true_eq] at overlap
    unfold LockRange.Compatible at conflict
    push Not at conflict
    obtain ⟨-, owners, notShared⟩ := conflict
    rw [req.owner] at owners
    obtain ⟨o, owner, ne⟩ := otherSound.exists_other owners.symm
    have gives : Gives locks.data (max range.start other.start) o other.type := by
      refine ⟨other, mem, le_max_right _ _, ?_, owner, rfl⟩
      have := otherSound.nonempty
      omega
    have mode := h.heldMode_of_gives gives
    refine ⟨max range.start other.start, o, le_max_left _ _, ?_, requester ▸ ne, ?_⟩
    · have := req.nonempty
      omega
    · rcases otherSound.locking with type | type
      · right
        have exclusive : range.type = .exclusive := by
          have typed := req.typed
          cases rangeType : range.type <;> simp_all
        exact ⟨exclusive, by rw [mode, type]; decide⟩
      · left
        rw [mode, type]
        rfl
  · rintro ⟨x, o, low, high, ne, mode⟩
    rw [requester] at ne
    have held : locks.heldMode x o ≠ .none := by
      rcases mode with exclusive | ⟨-, held⟩
      · rw [exclusive]
        decide
      · exact held
    obtain ⟨other, mem, gives, modeAt⟩ := exists_of_heldMode_ne_none held
    refine ⟨other, mem, ?_, ?_⟩
    · have := gives.1
      have := gives.2.1
      simp only [overlaps, Bool.and_eq_true, decide_eq_true_eq]
      omega
    · rintro (unlock | owners | ⟨rangeShared, otherShared⟩)
      · exact locking unlock
      · have owner := gives.2.2.1
        rw [← owners, req.owner, mem_singleton] at owner
        exact ne owner
      · rw [modeAt, otherShared, rangeShared] at mode
        simp [LockType.mode] at mode

/-!
Unlocking any pair of offsets, also an empty one, takes the offsets away from the
owner and nothing else.
-/

theorem LockRanges.Sound.insert_of_empty (h : locks.Sound) (empty : range.stop ≤ range.start) :
    locks.insert range = locks := by
  have stopped : (locks.cursor range).step = none := by
    unfold InsertCursor.step cursor
    cases (touched locks.data range).middle with
    | nil => rfl
    | cons other rest => simp [empty]
  have looped : (locks.cursor range).loop (locks.cursor range).cost =
      locks.cursor range := by
    cases (locks.cursor range).cost with
    | zero => rfl
    | succ fuel => simp [InsertCursor.loop, stopped]
  have middleSound : ∀ r ∈ (touched locks.data range).middle, r.Sound := by
    intro r mem
    apply h.ranges
    rw [← touched_parts locks.data range]
    simp [mem]
  have closed : (locks.cursor range).close = (touched locks.data range).middle := by
    have nothing : ¬ range.start < range.stop := by omega
    simp only [InsertCursor.close, cursor, nothing, if_false]
    exact live_of_sound middleSound
  have same : (locks.insert range).data = locks.data := by
    simp only [insert, looped, closed, append_assoc]
    exact touched_parts locks.data range
  cases locks
  simpa [insert] using same

theorem LockRanges.fits_of_unlock (locks : LockRanges)
    (unlock : range.type = .unlock) : locks.fits range = true := by
  have unlocking : range.unlocking = true := by simp [unlocking_iff, unlock]
  simp [LockRanges.fits, LockRanges.findCollision, unlocking]

theorem LockRanges.Sound.insert_unlock (h : locks.Sound) (owner : range.keys = [k])
    (unlock : range.type = .unlock) : (locks.insert range).Sound ∧
      (locks.insert range).heldMode = locks.heldMode.assign range.start range.stop k .none := by
  rcases Nat.lt_or_ge range.start range.stop with ne | empty
  · have req : range.Request k := ⟨ne, owner, by simp [unlock]⟩
    have fits := locks.fits_of_unlock unlock
    refine ⟨(h.insert_spec req fits).1, ?_⟩
    rw [h.heldMode_insert req fits, unlock]
    rfl
  · rw [h.insert_of_empty empty, HeldMap.assign_empty _ empty]
    exact ⟨h, rfl⟩

/-!
The invariant of the locks of one inode: the active ranges are sound, and the queue
holds requests for locks, sorted by start and end.  The sorting is what the binary
searches of `enqueue` and `gatherCandidates` rely on.
-/

/-- What waits in a queue: a request of one owner for a lock. -/
structure LockRange.Waiting (limit : Nat) (range : LockRange) : Prop where
  request : range.Request range.requester
  locking : range.type = .shared ∨ range.type = .exclusive
  inLimit : range.start ≤ limit

theorem LockRange.Waiting.not_unlock (h : range.Waiting limit) : range.type ≠ .unlock := by
  rcases h.locking with type | type <;> simp [type]

theorem LockRange.Waiting.not_unlocking (h : range.Waiting limit) : range.unlocking = false := by
  rw [Bool.eq_false_iff, ne_eq, unlocking_iff, h.request.owner]
  simpa using h.not_unlock

/-- Start and end, in the order of the queue. -/
def LockRange.span (range : LockRange) : Nat ×ₗ Nat := toLex (range.start, range.stop)

theorem LockRange.before_iff (range other : LockRange) :
    range.before other = true ↔ range.span < other.span := by
  simp [LockRange.before, LockRange.span, Prod.Lex.lt_iff]

/-- The invariant of one entry. -/
structure InodeLocks.Valid (limit : Nat) (s : InodeLocks) : Prop where
  active : s.active.Sound
  waiting : ∀ q ∈ s.pending, q.Waiting limit
  sorted : s.pending.Pairwise (fun a b => a.span ≤ b.span)

namespace InodeLocks

variable {limit : Nat} {s : InodeLocks} {lock : LockRange}

/-- The map from offsets and owners to modes of the active locks. -/
def held (s : InodeLocks) : HeldMap := s.active.heldMode

theorem Valid.empty : Valid limit InodeLocks.empty :=
  ⟨LockRanges.Sound.empty, fun _ mem => absurd mem not_mem_nil, List.Pairwise.nil⟩

@[simp] theorem mem_enqueue {q : LockRange} :
    q ∈ (s.enqueue lock).pending ↔ q = lock ∨ q ∈ s.pending := by
  have cut := take_append_drop (partitionPoint (fun other => other.before lock) s.pending) s.pending
  constructor
  · intro mem
    simp only [enqueue, mem_append, mem_cons] at mem
    rcases mem with front | rfl | back
    · exact .inr (mem_of_mem_take front)
    · exact .inl rfl
    · exact .inr (mem_of_mem_drop back)
  · intro mem
    simp only [enqueue, mem_append, mem_cons]
    rcases mem with rfl | mem
    · exact .inr (.inl rfl)
    · rw [← cut, mem_append] at mem
      tauto

theorem Valid.enqueue (valid : Valid limit s) (h : lock.Waiting limit) :
    Valid limit (s.enqueue lock) := by
  refine ⟨valid.active, ?_, ?_⟩
  · intro q mem
    rcases mem_enqueue.mp mem with rfl | mem
    · exact h
    · exact valid.waiting q mem
  · have partitioned : s.pending.Pairwise
        (fun a b => b.before lock = true → a.before lock = true) :=
      valid.sorted.imp fun {a b} le hit =>
        (LockRange.before_iff _ _).mpr (lt_of_le_of_lt le ((LockRange.before_iff _ _).mp hit))
    have cut := valid.sorted
    rw [← take_append_drop (partitionPoint (fun other => other.before lock) s.pending) s.pending,
      pairwise_append] at cut
    simp only [InodeLocks.enqueue]
    rw [pairwise_append, pairwise_cons]
    refine ⟨cut.1, ⟨?_, cut.2.1⟩, ?_⟩
    · intro q mem
      have := not_before_of_mem_drop partitioned mem
      rw [← not_lt, ← LockRange.before_iff]
      simpa using this
    · intro q mem r later
      have hit := before_of_mem_take mem
      rcases mem_cons.mp later with rfl | later
      · exact ((LockRange.before_iff _ _).mp hit).le
      · exact cut.2.2 q mem r later

/-- A request that fits is placed. -/
theorem apply_of_fits (nonblocking : Bool) (fits : s.active.fits lock = true) :
    s.apply lock nonblocking = ({ s with active := s.active.insert lock }, true) := by
  simp [apply, fits]

/-- A request for a lock that does not fit waits, or is refused when it must not
block. -/
theorem apply_of_not_fits (nonblocking : Bool) (blocked : s.active.fits lock = false)
    (locking : lock.unlocking = false) :
    s.apply lock nonblocking = (if nonblocking then s else s.enqueue lock, false) := by
  cases nonblocking <;> simp [apply, blocked, locking]

/-- The two outcomes of trying a request for a lock. -/
theorem Valid.apply_cases (valid : Valid limit s) (h : lock.Waiting limit)
    (nonblocking : Bool) : (s.active.fits lock = true ∧
      s.apply lock nonblocking = ({ s with active := s.active.insert lock }, true) ∧
      Valid limit { s with active := s.active.insert lock } ∧
      held { s with active := s.active.insert lock } =
        s.held.assign lock.start lock.stop lock.requester lock.type.mode) ∨
    (s.active.fits lock = false ∧ s.held.Blocks lock ∧
      s.apply lock nonblocking = (if nonblocking then s else s.enqueue lock, false) ∧
      Valid limit (if nonblocking then s else s.enqueue lock)) := by
  cases fits : s.active.fits lock with
  | true =>
    left
    refine ⟨rfl, apply_of_fits nonblocking fits, ?_, ?_⟩
    · exact ⟨(valid.active.insert_spec h.request fits).1, valid.waiting, valid.sorted⟩
    · exact valid.active.heldMode_insert h.request fits
  | false =>
    right
    refine ⟨rfl, ?_, apply_of_not_fits nonblocking fits h.not_unlocking, ?_⟩
    · exact (valid.active.fits_eq_false_iff h.request h.not_unlock).mp fits
    · cases nonblocking
      · exact valid.enqueue h
      · exact valid

/-- Unlocking always succeeds. -/
theorem Valid.apply_unlock (h : Valid limit s) (lock : LockRange) {k : OwnerKey}
    (owner : lock.keys = [k]) (unlock : lock.type = .unlock) (nonblocking : Bool) :
    s.apply lock nonblocking = ({ s with active := s.active.insert lock }, true) ∧
      Valid limit { s with active := s.active.insert lock } ∧
      held { s with active := s.active.insert lock } =
        s.held.assign lock.start lock.stop k .none := by
  obtain ⟨sound, held⟩ := h.active.insert_unlock owner unlock
  exact ⟨apply_of_fits nonblocking (s.active.fits_of_unlock unlock),
    ⟨sound, h.waiting, h.sorted⟩, held⟩

/-- Trying candidates keeps what a grant and a return to the queue keep. -/
theorem Valid.tryCandidates_keeps (h : Valid limit s) {queue : List LockRange}
    (waiting : ∀ q ∈ queue, q.Waiting limit) {P : InodeLocks → Prop} (initially : P s)
    (grants : ∀ q ∈ queue, ∀ now next : InodeLocks, P now → next.pending = now.pending →
      next.held = now.held.assign q.start q.stop q.requester q.type.mode → P next)
    (returns : ∀ q ∈ queue, ∀ now : InodeLocks, P now → P (now.enqueue q)) :
    Valid limit (s.tryCandidates queue).1 ∧ P (s.tryCandidates queue).1 := by
  induction queue generalizing s with
  | nil => exact ⟨h, initially⟩
  | cons cand rest ih =>
    rw [forall_mem_cons] at waiting grants returns
    rcases h.apply_cases waiting.1 false with
      ⟨-, applied, next, held⟩ | ⟨-, -, applied, next⟩
    · simp only [InodeLocks.tryCandidates, applied]
      exact ih next waiting.2 (grants.1 _ _ initially rfl held) grants.2 returns.2
    · simp only [InodeLocks.tryCandidates, applied]
      exact ih next waiting.2 (returns.1 _ initially) grants.2 returns.2

theorem Valid.tryCandidates (h : Valid limit s) {queue : List LockRange}
    (waiting : ∀ q ∈ queue, q.Waiting limit) : Valid limit (s.tryCandidates queue).1 :=
  (h.tryCandidates_keeps waiting (P := fun _ => True) trivial (fun _ _ _ _ _ _ _ => trivial)
    fun _ _ _ _ => trivial).1

theorem mem_pending_iff (start stop : Nat) {q : LockRange} : q ∈ s.pending ↔
      q ∈ (s.candidates start stop).middle ∨ q ∈ (s.gatherCandidates start stop).2.pending := by
  have parts := window_append s.pending (firstTouched s.pending start) (lastTouched s.pending stop)
  conv_lhs => rw [← parts]
  simp only [gatherCandidates, mem_append]
  tauto

@[simp] theorem held_gatherCandidates (start stop : Nat) :
    (s.gatherCandidates start stop).2.held = s.held := rfl

/-- Nothing is left in the queue by a search that starts at the beginning and goes
on to the limit of the kind. -/
theorem Valid.gatherCandidates_all (h : Valid limit s) :
    (s.candidates 0 limit).middle = s.pending ∧ (s.gatherCandidates 0 limit).2.pending = [] := by
  have first : firstTouched s.pending 0 = 0 := by
    unfold firstTouched
    rw [partitionPoint_of_none (by simp)]
    rfl
  have last : lastTouched s.pending limit = s.pending.length := by
    apply partitionPoint_of_all
    intro q mem
    have := (h.waiting q mem).inLimit
    simpa using this
  simp [gatherCandidates, candidates, window, first, last]

theorem Valid.gatherCandidates (h : Valid limit s) (start stop : Nat) :
    Valid limit (s.gatherCandidates start stop).2 := by
  refine ⟨h.active, ?_, ?_⟩
  · intro q mem
    exact h.waiting q ((mem_pending_iff start stop).mpr (.inr mem))
  · have parts := window_append s.pending (firstTouched s.pending start)
      (lastTouched s.pending stop)
    have sorted := h.sorted
    rw [← parts] at sorted
    exact sorted.sublist ((sublist_append_left _ _).append (List.Sublist.refl _))

theorem Valid.candidates_waiting (h : Valid limit s) (start stop : Nat) :
    ∀ q ∈ (s.candidates start stop).middle, q.Waiting limit := fun q mem =>
  h.waiting q ((mem_pending_iff start stop).mpr (.inl mem))

theorem Valid.manageLockTryLockPending (h : Valid limit s) (start stop : Nat) :
    Valid limit (s.manageLockTryLockPending start stop).1 :=
  (h.gatherCandidates start stop).tryCandidates (h.candidates_waiting start stop)

theorem Valid.removePending (h : Valid limit s) (pred : LockRange → Bool) :
    Valid limit (s.removePending pred) :=
  ⟨h.active, fun q mem => h.waiting q (mem_of_mem_filter mem), h.sorted.filter _⟩

theorem mem_removePending {pred : LockRange → Bool} {q : LockRange} :
    q ∈ (s.removePending pred).pending ↔ q ∈ s.pending ∧ pred q = false := by
  simp [InodeLocks.removePending]

theorem Valid.unlockAll (h : Valid limit s) : Valid limit s.unlockAll :=
  ⟨LockRanges.Sound.empty, h.waiting, h.sorted⟩

/-- The held map without the owners that are gone. -/
def without (held : HeldMap) (gone : OwnerKey → Bool) : HeldMap :=
  fun x o => if gone o then .none else held x o

section UnlockOwners

variable {pred : Owner → Bool} {gone : OwnerKey → Bool}

theorem keys_keepOwners (agrees : ∀ o : Owner, pred o = gone o.key) (range : LockRange) :
    (keepOwners pred range).keys = range.keys.filter (fun k => !gone k) := by
  simp only [LockRange.keys, filter_map]
  congr 1
  apply filter_congr
  intro o _
  simp [agrees o]

theorem sound_keepOwners {range : LockRange} (h : range.Sound)
    (owned : (keepOwners pred range).owners ≠ []) : (keepOwners pred range).Sound := by
  refine ⟨h.nonempty, h.locking, owned, ?_, ?_⟩
  · exact h.sorted.sublist (filter_sublist.map _)
  · intro exclusive
    have one := h.exclusiveOwner exclusive
    have fewer : (keepOwners pred range).owners.length ≤ range.owners.length := length_filter_le _ _
    have pos := length_pos_iff.mpr owned
    omega

/-- Removing owners from all ranges takes exactly their locks away. -/
theorem Valid.unlock (h : Valid limit s) (pred : Owner → Bool)
    (gone : OwnerKey → Bool) (agrees : ∀ o : Owner, pred o = gone o.key) :
    Valid limit (s.unlock pred).1 ∧ (s.unlock pred).1.held = without s.held gone := by
  have mem {r : LockRange} : r ∈ (s.unlock pred).1.active.data ↔
      (∃ original ∈ s.active.data, keepOwners pred original = r) ∧ r.owners ≠ [] := by
    simp [InodeLocks.unlock]
  have sound : (s.unlock pred).1.active.Sound := by
    constructor
    · intro r inTable
      obtain ⟨⟨original, originalMember, rfl⟩, owned⟩ := mem.mp inTable
      exact sound_keepOwners (h.active.ranges original originalMember) owned
    · have mapped : (s.active.data.map (keepOwners pred)).Pairwise LockRange.Precedes :=
        pairwise_map.mpr h.active.layout
      exact mapped.filter _
  refine ⟨⟨sound, h.waiting, h.sorted⟩, ?_⟩
  have gives (x : Nat) (o : OwnerKey) (t : LockType) :
      Gives (s.unlock pred).1.active.data x o t ↔ gone o = false ∧ Gives s.active.data x o t := by
    constructor
    · rintro ⟨r, inTable, low, high, owner, type⟩
      obtain ⟨⟨original, originalMember, rfl⟩, -⟩ := mem.mp inTable
      rw [keys_keepOwners agrees, mem_filter] at owner
      exact ⟨by simpa using owner.2, original, originalMember, low, high, owner.1, type⟩
    · rintro ⟨stays, original, originalMember, low, high, owner, type⟩
      have kept : o ∈ (keepOwners pred original).keys := by
        rw [keys_keepOwners agrees, mem_filter]
        exact ⟨owner, by simp [stays]⟩
      refine ⟨keepOwners pred original, mem.mpr ⟨⟨original, originalMember, rfl⟩, ?_⟩,
        low, high, kept, type⟩
      intro none
      simp [LockRange.keys, none] at kept
  funext x o
  unfold without
  cases stays : gone o with
  | true =>
    apply LockRanges.heldMode_of_not_gives
    intro t given
    rw [gives] at given
    simp [stays] at given
  | false =>
    apply h.active.heldMode_congr sound
    simp [gives, stays]

variable {f : LockRange → Nat} {ranges : List LockRange}

theorem foldl_min_le (initial : Nat) :
    ∀ r ∈ ranges, ranges.foldl (fun least r => min least (f r)) initial ≤ f r := by
  induction ranges using reverseRecOn with
  | nil => simp
  | append_singleton ranges last ih =>
    rw [foldl_append]
    exact forall_mem_append.mpr ⟨fun r mem => (min_le_left _ _).trans (ih r mem),
      forall_mem_singleton.mpr (min_le_right _ _)⟩

theorem le_foldl_max (initial : Nat) :
    ∀ r ∈ ranges, f r ≤ ranges.foldl (fun most r => max most (f r)) initial := by
  induction ranges using reverseRecOn with
  | nil => simp
  | append_singleton ranges last ih =>
    rw [foldl_append]
    exact forall_mem_append.mpr ⟨fun r mem => (ih r mem).trans (le_max_left _ _),
      forall_mem_singleton.mpr (le_max_right _ _)⟩

/-- The owners had no active lock outside the affected range. -/
theorem without_of_not_affected (pred : Owner → Bool)
    (gone : OwnerKey → Bool) (agrees : ∀ o : Owner, pred o = gone o.key) (x : Nat)
    (outside : x < (s.unlock pred).2.1 ∨ (s.unlock pred).2.2 ≤ x) (o : OwnerKey) :
    without s.held gone x o = s.held x o := by
  unfold without
  split
  next leaving =>
    by_contra ne
    obtain ⟨r, mem, gives, -⟩ := LockRanges.exists_of_heldMode_ne_none (Ne.symm ne)
    obtain ⟨owner, ownerMember, rfl⟩ := mem_map.mp gives.2.2.1
    have affected : r ∈ s.active.data.filter (fun lock => lock.owners.any pred) := by
      refine mem_filter.mpr ⟨mem, any_eq_true.mpr ⟨owner, ownerMember, ?_⟩⟩
      rw [agrees]
      exact leaving
    have low : (s.unlock pred).2.1 ≤ r.start := foldl_min_le _ r affected
    have high : r.stop ≤ (s.unlock pred).2.2 := le_foldl_max _ r affected
    have := gives.1
    have := gives.2.1
    omega
  · rfl

end UnlockOwners

end InodeLocks

/-!
Every operation keeps the invariant, whatever its arguments.
-/

/-- A call does not ask for a lock that starts behind the limit of its kind. -/
def InodeOp.InLimit (limit : Nat) : InodeOp → Prop
  | .lock call => call.start.toNat ≤ limit
  | _ => True

theorem LockCall.waiting_range {call : LockCall}
    (inLimit : call.start.toNat ≤ limit) {type : LockType}
    (locks : (call.oper = .shared ∧ type = .shared) ∨
      (call.oper = .exclusive ∧ type = .exclusive)) : (call.range type).Waiting limit := by
  refine ⟨⟨?_, rfl, ?_⟩, ?_, inLimit⟩
  · exact call.nonempty (locks.imp And.left And.left)
  · rcases locks with ⟨-, rfl⟩ | ⟨-, rfl⟩ <;> simp [LockCall.range, single]
  · exact locks.imp And.right And.right

namespace InodeLocks

variable {limit : Nat} {s : InodeLocks}

theorem Valid.settle {outcome : InodeLocks × Bool} (h : Valid limit outcome.1)
    (start stop : Nat) : Valid limit (settle outcome start stop).1 :=
  h.manageLockTryLockPending start stop

theorem Valid.lockOperation (h : Valid limit s) {call : LockCall}
    (inLimit : call.start.toNat ≤ limit) : Valid limit (s.lockOperation call).1 := by
  unfold InodeLocks.lockOperation
  split
  next oper =>
    apply Valid.settle
    rcases h.apply_cases (call.waiting_range inLimit (.inl ⟨oper, rfl⟩))
      call.nonblocking with ⟨-, applied, next, -⟩ | ⟨-, -, applied, next⟩ <;> exact applied ▸ next
  next oper =>
    rcases h.apply_cases (call.waiting_range inLimit (.inr ⟨oper, rfl⟩))
      call.nonblocking with ⟨-, applied, next, -⟩ | ⟨-, -, applied, next⟩ <;> exact applied ▸ next
  · apply Valid.settle
    obtain ⟨applied, next, -⟩ := h.apply_unlock (call.range .unlock) rfl rfl false
    exact applied ▸ next
  · apply Valid.settle
    obtain ⟨applied, next, -⟩ := (h.removePending _).apply_unlock call.releaseRange rfl rfl false
    exact applied ▸ next
  · exact h

/-- The session of an owner. -/
def sessionOf (k : OwnerKey) : Nat := (ofLex k).2

theorem Valid.locksClearSession (h : Valid limit s) (sessionid : Nat) :
    Valid limit (s.locksClearSession sessionid).1 := by
  have released := ((h.removePending (requestOfSession sessionid)).unlock
      (fun o => o.sessionid == sessionid) (fun k => sessionOf k == sessionid)
      (fun _ => rfl)).1
  unfold InodeLocks.locksClearSession
  simp only
  split
  · exact released.gatherCandidates _ _
  · exact released

theorem Valid.step (h : Valid limit s) {op : InodeOp} (inLimit : op.InLimit limit) :
    Valid limit (s.step limit op).1 := by
  cases op with
  | lock call => exact h.lockOperation inLimit
  | clearSession sessionid => exact h.locksClearSession sessionid
  | unlockInode => exact h.unlockAll.manageLockTryLockPending 0 limit
  | removePending ownerid sessionid reqid => exact h.removePending _

end InodeLocks

/-- Every entry of both tables is valid. -/
def LockTables.Valid (tables : LockTables) : Prop :=
  ∀ kind inode, InodeLocks.Valid kind.limit (tables.table kind inode)

theorem LockEvent.target_inLimit {event : LockEvent} {kind : LockKind} {inode : Nat}
    {op : InodeOp} (target : event.target = some (kind, inode, op)) : op.InLimit kind.limit := by
  cases event with
  | flockOperation inode allowed owner oper nonblocking =>
    simp only [LockEvent.target] at target
    split at target
    · cases target
      exact Nat.zero_le _
    · cases target
  | posixLockOperation inode allowed call =>
    simp only [LockEvent.target] at target
    split at target
    · cases target
      have := call.start.toNat_lt
      simp only [InodeOp.InLimit, LockKind.limit, maxOffset]
      omega
    · cases target
  | locksClearSession kind inode sessionid =>
    cases target
    trivial
  | locksUnlockInode kind inode =>
    cases target
    trivial
  | locksRemovePending kind ownerid sessionid inode reqid =>
    cases target
    trivial

namespace LockTables

theorem Valid.empty : LockTables.empty.Valid := by
  intro kind inode
  cases kind <;> exact InodeLocks.Valid.empty

/-- An event replaces one entry, by an operation in the limit of its kind, or does
nothing. -/
theorem step_cases (tables : LockTables) (event : LockEvent) :
    (tables.step event = tables ∧ tables.applied event = []) ∨
      ∃ kind inode op, event.target = some (kind, inode, op) ∧ op.InLimit kind.limit ∧
        tables.step event = tables.set kind inode ((tables.table kind inode).step kind.limit op).1 ∧
        tables.applied event = ((tables.table kind inode).step kind.limit op).2 := by
  cases target : event.target with
  | none => exact .inl ⟨by simp [step, target], by simp [applied, target]⟩
  | some found =>
    obtain ⟨kind, inode, op⟩ := found
    exact .inr ⟨kind, inode, op, rfl, LockEvent.target_inLimit target,
      by simp [step, target], by simp [applied, target]⟩

theorem Valid.step {tables : LockTables} (h : tables.Valid) (event : LockEvent) :
    (tables.step event).Valid := by
  rcases tables.step_cases event with ⟨same, -⟩ | ⟨kind, inode, op, -, inLimit, next, -⟩
  · rw [same]
    exact h
  intro other node
  rw [next, table_set]
  split
  next same =>
    rw [same.1]
    exact (h kind inode).step inLimit
  · exact h other node

/-- Every reachable pair of tables is valid. -/
theorem valid_run (events : List LockEvent) :
    (StepSystem.run LockTables.step LockTables.empty events).Valid :=
  StepSystem.invariant_run_of_step (P := LockTables.Valid)
    (fun _ event valid => valid.step event) Valid.empty events

/-- At any time an offset is locked exclusively by one owner and by nobody else, or by nobody
exclusively. -/
theorem exclusive_alone (events : List LockEvent) (kind : LockKind) (inode x : Nat) :
    let held := ((StepSystem.run step empty events).table kind inode).held
    (∀ o, held x o ≠ .exclusive) ∨
      ∃ o, held x o = .exclusive ∧ ∀ p, p ≠ o → held x p = .none := by
  intro held
  have sound := (valid_run events kind inode).active
  by_cases free : ∀ o, held x o ≠ .exclusive
  · exact .inl free
  push Not at free
  obtain ⟨o, exclusive⟩ := free
  have locked : held x o ≠ .none := by simp [exclusive]
  obtain ⟨r, mem, gives, mode⟩ := LockRanges.exists_of_heldMode_ne_none locked
  refine .inr ⟨o, exclusive, fun p ne => by_contra fun lockedToo => ?_⟩
  obtain ⟨q, memQ, givesQ, -⟩ := LockRanges.exists_of_heldMode_ne_none lockedToo
  -- both owners stand in the one range at the offset
  obtain rfl := sound.eq_of_common_offset mem memQ gives.1 gives.2.1 givesQ.1 givesQ.2.1
  have type : r.type = .exclusive := by
    have eq : r.type.mode = .exclusive := mode.symm.trans exclusive
    revert eq
    cases r.type <;> simp [LockType.mode]
  obtain ⟨k, single⟩ := (sound.ranges r mem).exclusive_keys type
  have owner := gives.2.2.1
  have ownerQ := givesQ.2.2.1
  rw [single, mem_singleton] at owner ownerQ
  exact ne (ownerQ.trans owner.symm)

end LockTables

end LeilFS.Locks
