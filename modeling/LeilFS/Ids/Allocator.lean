/-
Module: LeilFS.Ids.Allocator
Purpose: A pool of ids under any sequence of calls is an allocator of a set of ids.
Trusted boundary: none
-/
import LeilFS.Ids.Pool
import LeilFS.Lib.StepSystem

namespace LeilFS.Ids

/-!
The history of a pool is the pool together with the set of ids that its callers
hold, as they know it from the answers they got: ids that `acquire` or
`markAsAcquired` has given out and that no `release` has taken back.
-/

/-- The calls that change a pool. -/
inductive PoolCall where
  | acquire (choice : Nat)
  | release (id : Nat)
  | markAsAcquired (id : Nat)
deriving Repr, DecidableEq

/-- A pool and the ids that its callers hold. -/
structure PoolHistory where
  pool : IdPool
  held : Finset Nat
deriving DecidableEq

namespace PoolHistory

/-- One call and its answer. -/
def step (h : PoolHistory) : PoolCall → Option PoolHistory
  | .acquire choice =>
      (h.pool.acquire choice).map fun (pool, id) =>
        { pool := pool, held := if id = 0 then h.held else insert id h.held }
  | .release id =>
      (h.pool.release id).map fun (pool, released) =>
        { pool := pool, held := if released then h.held.erase id else h.held }
  | .markAsAcquired id =>
      (h.pool.markAsAcquired id).map fun (pool, marked) =>
        { pool := pool, held := if marked then insert id h.held else h.held }

/-- A call after any others, or nothing once the code has stopped. -/
def stepRun (h : Option PoolHistory) (call : PoolCall) : Option PoolHistory :=
  h.bind fun h => h.step call

/-- A new pool, of which nobody holds an id. -/
def start (p : IdPool.Parameters) : Option PoolHistory :=
  (IdPool.new p.maxSize p.blockSize p.cacheSize).map fun pool => { pool := pool, held := ∅ }

/-- The id is in range and, when the cache is full, not one that the cache has. -/
def ReleaseOnce (pool : IdPool) (id : Nat) : Prop :=
  pool.cache.length < pool.maxCacheSize ∨ id ∉ pool.cache

/-- The blocks that are missing in front of the id can be counted with an `int`. -/
def InReach (pool : IdPool) (id : Nat) : Prop :=
  id / pool.blockSize + 1 - pool.blocks.length < 2 ^ 31

/-- The calls for which a pool keeps its promise. -/
def Admissible (pool : IdPool) : PoolCall → Prop
  | .acquire _ => True
  | .release id => (1 ≤ id ∧ id ≤ pool.maxId) ∧ ReleaseOnce pool id
  | .markAsAcquired id => (1 ≤ id ∧ id ≤ pool.maxId) ∧ InReach pool id

instance decidableAdmissible (pool : IdPool) :
    (call : PoolCall) → Decidable (Admissible pool call)
  | .acquire _ => isTrue trivial
  | .release id => inferInstanceAs (Decidable ((1 ≤ id ∧ id ≤ pool.maxId) ∧
      (pool.cache.length < pool.maxCacheSize ∨ id ∉ pool.cache)))
  | .markAsAcquired id => inferInstanceAs (Decidable ((1 ≤ id ∧ id ≤ pool.maxId) ∧
      id / pool.blockSize + 1 - pool.blocks.length < 2 ^ 31))

/-- The pool that gets the call finds it admissible. -/
def AdmissibleRun : Option PoolHistory → PoolCall → Prop
  | some h, call => Admissible h.pool call
  | none, _ => True

instance decidableAdmissibleRun :
    (h : Option PoolHistory) → (call : PoolCall) → Decidable (AdmissibleRun h call)
  | some h, call => decidableAdmissible h.pool call
  | none, _ => isTrue trivial

/-- What a pool promises to its callers. -/
structure Allocates (maxSize : Nat) (h : PoolHistory) : Prop where
  acquire : ∀ choice, ∃ pool id, h.pool.acquire choice = some (pool, id) ∧
    (id = 0 → h.held = Finset.Icc 1 maxSize) ∧
    (id ≠ 0 → (1 ≤ id ∧ id ≤ maxSize) ∧ id ∉ h.held)
  release : ∀ id, 1 ≤ id → id ≤ maxSize → ReleaseOnce h.pool id →
    ∃ pool released, h.pool.release id = some (pool, released) ∧
      (released = true ↔ id ∈ h.held) ∧ (released = false → pool = h.pool)
  markAsAcquired : ∀ id, 1 ≤ id → id ≤ maxSize → InReach h.pool id →
    ∃ pool marked, h.pool.markAsAcquired id = some (pool, marked) ∧
      (marked = true ↔ id ∉ h.held)
  checkIfAvailable : ∀ id, 1 ≤ id → id ≤ maxSize →
    (h.pool.checkIfAvailable id = true ↔ id ∉ h.held)
  size : h.pool.size = h.held.card

/-- The pool is valid and knows what its callers hold. -/
structure Agrees (maxSize : Nat) (h : PoolHistory) : Prop where
  valid : h.pool.Valid
  held : h.pool.held = h.held
  maxId : h.pool.maxId = maxSize

variable {maxSize : Nat} {h : PoolHistory}

theorem Agrees.allocates (agrees : Agrees maxSize h) : Allocates maxSize h := by
  obtain ⟨valid, held, maxId⟩ := agrees
  refine ⟨fun choice => ?_, fun id low high once => ?_, fun id low high reach => ?_,
    fun id low high => ?_, ?_⟩
  · obtain ⟨pool, id, acquired, takes | ⟨rfl, all, -⟩⟩ := valid.acquire choice
    · refine ⟨pool, id, acquired, fun zero => ?_, fun _ => ?_⟩
      · have := takes.low
        omega
      · rw [← held, ← maxId]
        exact ⟨⟨takes.low, takes.high⟩, takes.fresh⟩
    · rw [← held, ← maxId]
      exact ⟨pool, 0, acquired, fun _ => all, fun ne => absurd rfl ne⟩
  · obtain ⟨pool, released, -, eq⟩ := valid.release low (maxId ▸ high) once
    rw [← held]
    exact ⟨pool, _, released, by simp, fun refused => eq (by simpa using refused)⟩
  · obtain ⟨pool, marked, -⟩ := valid.markAsAcquired low (maxId ▸ high) reach
    rw [← held]
    exact ⟨pool, _, marked, by simp⟩
  · rw [← held]
    exact IdPool.checkIfAvailable_iff low (maxId ▸ high)
  · rw [← held]
    exact valid.used

/-- An admissible call is answered, and the pool goes on knowing what is held. -/
theorem Agrees.step (agrees : Agrees maxSize h) {call : PoolCall}
    (admissible : Admissible h.pool call) :
    ∃ next, h.step call = some next ∧ Agrees maxSize next := by
  obtain ⟨valid, held, maxId⟩ := agrees
  cases call with
  | acquire choice =>
    obtain ⟨pool, id, acquired, takes | ⟨rfl, -, valid', eq, held'⟩⟩ := valid.acquire choice
    · have ne : id ≠ 0 := by
        have := takes.low
        omega
      refine ⟨⟨pool, insert id h.held⟩, by simp [PoolHistory.step, acquired, ne],
        takes.valid, ?_, takes.same.maxId.trans maxId⟩
      rw [takes.held, held]
    · exact ⟨⟨pool, h.held⟩, by simp [PoolHistory.step, acquired], valid',
        held'.trans held, eq.maxId.trans maxId⟩
  | release id =>
    obtain ⟨⟨low, high⟩, once⟩ := admissible
    obtain ⟨pool, released, gives, unchanged⟩ := valid.release low high once
    by_cases mem : id ∈ h.pool.held
    · have given := gives mem
      refine ⟨⟨pool, h.held.erase id⟩, by simp [PoolHistory.step, released, mem],
        given.valid, ?_, given.same.maxId.trans maxId⟩
      rw [given.held, held]
    · refine ⟨h, ?_, valid, held, maxId⟩
      simp [PoolHistory.step, released, mem, unchanged mem]
  | markAsAcquired id =>
    obtain ⟨⟨low, high⟩, reach⟩ := admissible
    obtain ⟨pool, marked, takes, unchanged⟩ := valid.markAsAcquired low high reach
    by_cases mem : id ∈ h.pool.held
    · refine ⟨h, ?_, valid, held, maxId⟩
      simp [PoolHistory.step, marked, mem, unchanged mem]
    · have taken := takes mem
      refine ⟨⟨pool, insert id h.held⟩, by simp [PoolHistory.step, marked, mem],
        taken.valid, ?_, taken.same.maxId.trans maxId⟩
      rw [taken.held, held]

theorem agrees_start (p : IdPool.Parameters) : ∃ h, start p = some h ∧ Agrees p.maxSize h := by
  obtain ⟨pool, created, valid, nothing, maxId, -⟩ := p.valid_new
  exact ⟨⟨pool, ∅⟩, by simp [start, created], valid, nothing, maxId⟩

/-- After any sequence of admissible calls on a new pool, the pool is an allocator of
the ids from one to its bound. -/
theorem allocates_run (p : IdPool.Parameters) {calls : List PoolCall}
    (along : StepSystem.Along stepRun AdmissibleRun (start p) calls) :
    ∃ h, StepSystem.run stepRun (start p) calls = some h ∧ Allocates p.maxSize h := by
  have result : ∃ h, StepSystem.run stepRun (start p) calls = some h ∧
      Agrees p.maxSize h := by
    refine StepSystem.invariant_run
      (P := fun state => ∃ h, state = some h ∧ Agrees p.maxSize h) ?_ (agrees_start p) along
    rintro state call ⟨h, rfl, agrees⟩ admissible
    exact agrees.step admissible
  obtain ⟨h, reached, agrees⟩ := result
  exact ⟨h, reached, agrees.allocates⟩

/-- The ids one to three, with a cache for one id. -/
def threeIds : IdPool.Parameters :=
  { maxSize := 3, blockSize := 64, cacheSize := 1
    inWord := by decide, positive := by decide, small := by decide }

/-- Two ids are acquired and released, one into the cache and one into its block; the
third one is marked. -/
theorem allocates_threeIds :
    ∃ h, StepSystem.run stepRun (start threeIds)
        [.acquire 0, .acquire 0, .release 1, .release 2, .markAsAcquired 3] = some h ∧
      Allocates threeIds.maxSize h :=
  allocates_run threeIds (by decide)

/-- An id is acquired and released into the cache, which is full then. -/
def releasedOnce : List PoolCall := [.acquire 0, .release 1]

/-- Nobody holds the id any more, and a second release succeeds. -/
theorem releasedOnce_released_twice :
    ∃ h, StepSystem.run stepRun (start threeIds) releasedOnce = some h ∧ 1 ∉ h.held ∧
      ∃ pool, h.pool.release 1 = some (pool, true) := by
  refine ⟨_, rfl, ?_, _, rfl⟩
  decide

end PoolHistory

end LeilFS.Ids
