/-
Module: LeilFS.Ids.Detainer
Purpose: A pool that holds released ids back for some time, in buckets of ids that
  were released at about the same time.
Trusted boundary: none
-/
import LeilFS.Ids.Pool

namespace LeilFS.Ids

open List

/-!
A detained id stays acquired in the underlying pool.  The ids of a bucket are kept
in a sparse bitset, of which there are two implementations: a Judy array, which
lists its elements in ascending order, and a queue of 32-bit numbers.  Time stamps
are natural numbers; sums of time stamps do not wrap around.

An operation also returns the signals that it emits, and the ids that it has forced
out of detention because there were too many.

[SPEC id_pool_detainer.h:34-234]
[SPEC id_pool_detainer.h:345-645]
-/

/-- The implementations of a sparse bitset. -/
inductive BitsetKind where
  | judy
  | deque
deriving Repr, DecidableEq

namespace SparseBitset

/-- Adds an element; the answer is whether it is new, which the queue does not check. -/
def set : BitsetKind → List Nat → Nat → List Nat × Bool
  | .judy, data, pos =>
      if pos ∈ data then (data, false) else (data.orderedInsert (· ≤ ·) pos, true)
  | .deque, data, pos => (data ++ [pos % 2 ^ 32], true)

/-- Whether an element is there. -/
def test (data : List Nat) (pos : Nat) : Bool := data.contains pos

/-- Removes an element, if it is there. -/
def unset (data : List Nat) (pos : Nat) : List Nat × Bool :=
  if pos ∈ data then (data.erase pos, true) else (data, false)

end SparseBitset

/-- Ids that came into detention from one time on. -/
structure Bucket where
  ts : Nat
  data : List Nat
deriving Repr, DecidableEq

/-- What observers of the detention are told. -/
inductive DetainSignal where
  | added (id ts : Nat)
  | removed (id : Nat)
deriving Repr, DecidableEq

/-- A pool with detention. -/
structure IdPoolDetainer where
  base : IdPool
  detention : List Bucket
  detainTime : Nat
  bucketTime : Nat
  maxDetentionSize : Nat
  detainedCount : Nat
  releaseCount : Nat
  kind : BitsetKind
deriving Repr, DecidableEq

/-- What an operation returns and emits, and whom it has forced out. -/
structure Outcome (α : Type) where
  detainer : IdPoolDetainer
  answer : α
  signals : List DetainSignal
  forced : List Nat
deriving Repr, DecidableEq

/-- A `size_t` converted to an `int`. -/
def toInt (n : Nat) : Int := Int.bmod n (2 ^ 32)

namespace IdPoolDetainer

/-- The buckets after a change of the first one, which goes when it is empty. -/
def replaceFront (bucket : Bucket) (data : List Nat) (rest : List Bucket) : List Bucket :=
  if data = [] then rest else { bucket with data := data } :: rest

/-- Takes the first id of the first bucket out of detention. -/
def takeFront (d : IdPoolDetainer) : Option (IdPoolDetainer × Nat) :=
  match d.detention with
  | [] => none
  | bucket :: rest =>
      match bucket.data with
      | [] => none
      | id :: _ =>
          some ({ d with
              detention := replaceFront bucket (SparseBitset.unset bucket.data id).1 rest
              detainedCount := d.detainedCount - 1 }, id)

/-- Releases the first id of the first bucket to the pool. -/
def releaseFront (d : IdPoolDetainer) : Option (IdPoolDetainer × Nat) := do
  let (d, id) ← d.takeFront
  let (base, _) ← d.base.release id
  some ({ d with base := base }, id)

/-- Releases ids from the front, at most a number of them and only as long as the
time stamp of the bucket says so. -/
def releaseWhile (leaves : Nat → Bool) :
    Nat → IdPoolDetainer → Option (IdPoolDetainer × List Nat)
  | 0, d => some (d, [])
  | n + 1, d =>
      match d.detention with
      | [] => some (d, [])
      | bucket :: _ =>
          if leaves bucket.ts then do
            let (d, id) ← d.releaseFront
            let (d, ids) ← releaseWhile leaves n d
            some (d, id :: ids)
          else some (d, [])

/-- Tries to release ids whose time is over. -/
def releaseDetained (d : IdPoolDetainer) (ts : Nat) (maxCount : Int) :
    Option (IdPoolDetainer × List Nat) :=
  releaseWhile (fun bucketTs => decide (bucketTs + d.bucketTime + d.detainTime < ts))
    maxCount.toNat d

/-- Releases ids whatever their time is. -/
def forceReleaseDetained (d : IdPoolDetainer) (count : Int) : Option (IdPoolDetainer × List Nat) :=
  releaseWhile (fun _ => true) count.toNat d

/-- The release of ids at the beginning of every operation with a time stamp. -/
def releaseSome (d : IdPoolDetainer) (ts : Nat) : Option (IdPoolDetainer × List Nat) :=
  d.releaseDetained ts (toInt d.releaseCount)

/-- Makes room for one more id, unless the detention may be overcrowded. -/
def makeRoom (d : IdPoolDetainer) (overcrowd : Bool) : Option (IdPoolDetainer × List Nat) :=
  if overcrowd = false ∧ d.maxDetentionSize ≤ d.detainedCount then
    d.forceReleaseDetained (toInt (d.detainedCount - d.maxDetentionSize + 1))
  else some (d, [])

/-- Whether an id is in detention. -/
def detains (d : IdPoolDetainer) (id : Nat) : Bool :=
  d.detention.any fun bucket => SparseBitset.test bucket.data id

/-- The buckets, with a new one at the end if the last one is too old. -/
def openBucket (d : IdPoolDetainer) (ts : Nat) : List Bucket :=
  match d.detention.getLast? with
  | none => [{ ts := ts, data := [] }]
  | some back =>
      if back.ts + d.bucketTime < ts then d.detention ++ [{ ts := ts, data := [] }]
      else d.detention

/-- Puts an id into the last bucket. -/
def insert (d : IdPoolDetainer) (id ts : Nat) : IdPoolDetainer × List DetainSignal :=
  match (d.openBucket ts).getLast? with
  | none => (d, [])
  | some back =>
      let (data, isNew) := SparseBitset.set d.kind back.data id
      ({ d with
          detention := (d.openBucket ts).dropLast ++ [{ back with data := data }]
          detainedCount := if isNew then d.detainedCount + 1 else d.detainedCount },
        if isNew then [.added id ts] else [])

/-- Removes an id from the first bucket that has it. -/
def unsetFirst (id : Nat) : List Bucket → Option (List Bucket)
  | [] => none
  | bucket :: rest =>
      if id ∈ bucket.data then
        some (replaceFront bucket (SparseBitset.unset bucket.data id).1 rest)
      else (unsetFirst id rest).map fun rest => bucket :: rest

/-- Takes an id from the pool or, when there is none, from detention. -/
def acquireAny (d : IdPoolDetainer) (choice : Nat) (signals : List DetainSignal) :
    Option (Outcome Nat) := do
  let (base, id) ← d.base.acquire choice
  let d := { d with base := base }
  if id = 0 ∧ d.detention ≠ [] then
    let (d, id) ← d.takeFront
    some { detainer := d, answer := id, signals := signals ++ [.removed id], forced := [] }
  else some { detainer := d, answer := id, signals := signals, forced := [] }

/-- Takes an id. -/
def acquire (d : IdPoolDetainer) (choice ts : Nat) : Option (Outcome Nat) := do
  let (d, expired) ← d.releaseSome ts
  d.acquireAny choice (expired.map .removed)

/-- Puts an id of the underlying pool into detention. -/
def enter (d : IdPoolDetainer) (id ts : Nat) (overcrowd : Bool)
    (signals : List DetainSignal) : Option (Outcome Bool) := do
  let (d, forced) ← d.makeRoom overcrowd
  let (d, added) := d.insert id ts
  some { detainer := d, answer := true, signals := signals ++ forced.map .removed ++ added,
         forced := forced }

/-- Returns an id, which goes into detention. -/
def release (d : IdPoolDetainer) (id ts : Nat) : Option (Outcome Bool) := do
  let (d, expired) ← d.releaseSome ts
  if id = 0 ∨ d.base.checkIfAvailable id ∨ d.detains id then
    some { detainer := d, answer := false, signals := expired.map .removed, forced := [] }
  else d.enter id ts false (expired.map .removed)

/-- Puts a free id into detention. -/
def detain (d : IdPoolDetainer) (id ts : Nat) (overcrowd : Bool) :
    Option (Outcome Bool) := do
  let (d, expired) ← d.releaseSome ts
  if d.detains id then
    some { detainer := d, answer := false, signals := expired.map .removed, forced := [] }
  else
    let (base, marked) ← d.base.markAsAcquired id
    let d := { d with base := base }
    if marked then d.enter id ts overcrowd (expired.map .removed)
    else
      some { detainer := d, answer := false, signals := expired.map .removed, forced := [] }

/-- Marks an id as acquired, also one in detention. -/
def markAsAcquired (d : IdPoolDetainer) (id ts : Nat) : Option (Outcome Bool) := do
  let (d, expired) ← d.releaseSome ts
  let (base, marked) ← d.base.markAsAcquired id
  let d := { d with base := base }
  let signals := expired.map DetainSignal.removed
  if marked then some { detainer := d, answer := true, signals := signals, forced := [] }
  else
    match unsetFirst id d.detention with
    | some detention =>
        some { detainer := { d with detention := detention,
                                    detainedCount := d.detainedCount - 1 },
               answer := true, signals := signals ++ [.removed id], forced := [] }
    | none => some { detainer := d, answer := false, signals := signals, forced := [] }

/-- A pool with an empty detention; nothing for a division by zero. -/
def new (kind : BitsetKind) (detainTime bucketCount maxSize maxDetentionSize blockSize
    cacheSize releaseCount : Nat) : Option IdPoolDetainer :=
  if bucketCount = 0 then none
  else
    (IdPool.new maxSize blockSize cacheSize).map fun base =>
      { base := base, detention := [], detainTime := detainTime
        bucketTime := detainTime / bucketCount
        maxDetentionSize := maxDetentionSize, detainedCount := 0
        releaseCount := releaseCount, kind := kind }

/-- The number of acquired ids that are not detained. -/
def size (d : IdPoolDetainer) : Nat := d.base.size - d.detainedCount

/-!
The detention as a list of ids with the time stamp of their bucket.  Every change of
the buckets is the removal or the addition of one entry.
-/

/-- The entries of buckets. -/
def entriesOf (buckets : List Bucket) : List (Nat × Nat) :=
  buckets.flatMap fun bucket => bucket.data.map fun id => (id, bucket.ts)

/-- The entries of the detention, in the order in which its iterator lists them. -/
def entries (d : IdPoolDetainer) : List (Nat × Nat) := entriesOf d.detention

/-- The detained ids. -/
def detained (d : IdPoolDetainer) : Finset Nat := (d.entries.map Prod.fst).toFinset

@[simp] theorem entriesOf_nil : entriesOf [] = [] := rfl

@[simp] theorem entriesOf_cons (bucket : Bucket) (rest : List Bucket) :
    entriesOf (bucket :: rest) = (bucket.data.map fun id => (id, bucket.ts)) ++ entriesOf rest := by
  simp [entriesOf]

@[simp] theorem entriesOf_append (front back : List Bucket) :
    entriesOf (front ++ back) = entriesOf front ++ entriesOf back := by
  simp [entriesOf]

@[simp] theorem entriesOf_replaceFront (bucket : Bucket) (data : List Nat) (rest : List Bucket) :
    entriesOf (replaceFront bucket data rest) =
      (data.map fun id => (id, bucket.ts)) ++ entriesOf rest := by
  unfold replaceFront
  split
  next empty => simp [empty]
  · simp

theorem mem_detained {d : IdPoolDetainer} {id : Nat} :
    id ∈ d.detained ↔ ∃ ts, (id, ts) ∈ d.entries := by
  simp [detained]

theorem detains_iff {d : IdPoolDetainer} {id : Nat} : d.detains id = true ↔ id ∈ d.detained := by
  simp only [detains, SparseBitset.test, any_eq_true, contains_iff_mem,
    mem_detained, entries, entriesOf, mem_flatMap, mem_map, Prod.mk.injEq]
  constructor
  · rintro ⟨bucket, mem, inside⟩
    exact ⟨bucket.ts, bucket, mem, id, inside, rfl, rfl⟩
  · rintro ⟨ts, bucket, mem, other, inside, rfl, -⟩
    exact ⟨bucket, mem, inside⟩

/-- No bucket is empty. -/
def NonemptyBuckets (buckets : List Bucket) : Prop := ∀ bucket ∈ buckets, bucket.data ≠ []

theorem NonemptyBuckets.replaceFront {bucket : Bucket} {rest : List Bucket}
    (ne : NonemptyBuckets (bucket :: rest)) (data : List Nat) :
    NonemptyBuckets (replaceFront bucket data rest) := by
  unfold IdPoolDetainer.replaceFront
  split
  · exact fun other mem => ne other (mem_cons_of_mem _ mem)
  next some =>
    intro other mem
    rcases mem_cons.mp mem with rfl | mem
    · exact some
    · exact ne other (mem_cons_of_mem _ mem)

/-- The invariant of a pool with detention.  The numbers of blocks and, for the queue,
of ids are in the range of the types that the code uses for them. -/
structure Valid (d : IdPoolDetainer) : Prop where
  base : d.base.Valid
  fewBlocks : d.base.maxId / d.base.blockSize + 1 < 2 ^ 31
  width : d.kind = .deque → d.base.maxId < 2 ^ 32
  nonempty : NonemptyBuckets d.detention
  distinct : (d.entries.map Prod.fst).Nodup
  inBase : ∀ entry ∈ d.entries, entry.1 ∈ d.base.held
  count : d.detainedCount = d.entries.length

/-- The settings do not change. -/
structure SameSettings (d d' : IdPoolDetainer) : Prop where
  maxId : d'.base.maxId = d.base.maxId
  detainTime : d'.detainTime = d.detainTime
  bucketTime : d'.bucketTime = d.bucketTime
  maxDetentionSize : d'.maxDetentionSize = d.maxDetentionSize
  releaseCount : d'.releaseCount = d.releaseCount

theorem SameSettings.refl (d : IdPoolDetainer) : SameSettings d d :=
  ⟨rfl, rfl, rfl, rfl, rfl⟩

theorem SameSettings.trans {first second third : IdPoolDetainer}
    (prev : SameSettings first second) (after : SameSettings second third) :
    SameSettings first third :=
  ⟨after.maxId.trans prev.maxId, after.detainTime.trans prev.detainTime,
    after.bucketTime.trans prev.bucketTime,
    after.maxDetentionSize.trans prev.maxDetentionSize,
    after.releaseCount.trans prev.releaseCount⟩

namespace Valid

variable {d : IdPoolDetainer}

theorem card_detained (h : Valid d) : d.detained.card = d.detainedCount := by
  rw [detained, toFinset_card_of_nodup h.distinct, length_map, h.count]

theorem detained_subset (h : Valid d) : d.detained ⊆ d.base.held := by
  intro id mem
  obtain ⟨ts, entry⟩ := mem_detained.mp mem
  exact h.inBase _ entry

/-- The change of the underlying pool by an operation that does not touch detained
ids. -/
theorem withBase (h : Valid d) {base : IdPool} (baseValid : base.Valid)
    (eq : IdPool.SameParameters d.base base) (kept : ∀ entry ∈ d.entries, entry.1 ∈ base.held) :
    Valid { d with base := base } ∧ SameSettings d { d with base := base } :=
  ⟨{ base := baseValid
     fewBlocks := by
       simp only [eq.maxId, eq.blockSize]
       exact h.fewBlocks
     width := fun deque => by
       simp only [eq.maxId]
       exact h.width deque
     nonempty := h.nonempty
     distinct := h.distinct
     inBase := kept
     count := h.count }, ⟨eq.maxId, rfl, rfl, rfl, rfl⟩⟩

/-- One more entry. -/
theorem of_added (h : Valid d) {d' : IdPoolDetainer} {id bucketTs : Nat}
    (added : d'.entries.Perm ((id, bucketTs) :: d.entries)) (base : d'.base = d.base)
    (kind : d'.kind = d.kind) (count : d'.detainedCount = d.detainedCount + 1)
    (nonempty : NonemptyBuckets d'.detention) (held : id ∈ d.base.held)
    (free : id ∉ d.detained) : Valid d' := by
  have absent : id ∉ d.entries.map Prod.fst := by
    simpa [detained] using free
  exact
    { base := base ▸ h.base
      fewBlocks := base ▸ h.fewBlocks
      width := fun deque => base ▸ h.width (kind ▸ deque)
      nonempty := nonempty
      distinct := ((added.map Prod.fst).nodup_iff).mpr (nodup_cons.mpr ⟨absent, h.distinct⟩)
      inBase := fun entry mem => by
        rw [base]
        rcases mem_cons.mp (added.mem_iff.mp mem) with rfl | mem
        · exact held
        · exact h.inBase entry mem
      count := by rw [count, added.length_eq, length_cons, h.count] }

/-- One entry less. -/
theorem of_removed (h : Valid d) {d' : IdPoolDetainer} {id bucketTs : Nat}
    (gone : d.entries.Perm ((id, bucketTs) :: d'.entries)) (base : d'.base = d.base)
    (kind : d'.kind = d.kind) (count : d'.detainedCount = d.detainedCount - 1)
    (nonempty : NonemptyBuckets d'.detention) : Valid d' := by
  have distinct := ((gone.map Prod.fst).nodup_iff).mp h.distinct
  exact
    { base := base ▸ h.base
      fewBlocks := base ▸ h.fewBlocks
      width := fun deque => base ▸ h.width (kind ▸ deque)
      nonempty := nonempty
      distinct := (nodup_cons.mp distinct).2
      inBase := fun entry mem => by
        rw [base]
        exact h.inBase entry (gone.mem_iff.mpr (mem_cons_of_mem _ mem))
      count := by
        rw [count, h.count, gone.length_eq, length_cons, Nat.add_sub_cancel] }

/-- Taking the first id of the detention. -/
theorem takeFront (h : Valid d) {bucket : Bucket} {rest : List Bucket}
    (front : d.detention = bucket :: rest) :
    ∃ d' id, d.takeFront = some (d', id) ∧ Valid d' ∧ SameSettings d d' ∧
      d.entries = (id, bucket.ts) :: d'.entries ∧ d'.base = d.base := by
  have some : bucket.data ≠ [] := h.nonempty bucket (by simp [front])
  obtain ⟨id, others, data⟩ := exists_cons_of_ne_nil some
  have gone : (SparseBitset.unset bucket.data id).1 = others := by
    simp [SparseBitset.unset, data]
  let d' : IdPoolDetainer :=
    { d with
      detention := replaceFront bucket others rest
      detainedCount := d.detainedCount - 1 }
  have split : d.entries = (id, bucket.ts) :: d'.entries := by
    simp [entries, d', front, data]
  refine ⟨d', id, ?_, ?_, ⟨rfl, rfl, rfl, rfl, rfl⟩, split, rfl⟩
  · simp only [IdPoolDetainer.takeFront, front, data]
    rw [← data, gone]
  · exact h.of_removed (List.Perm.of_eq split) rfl rfl rfl
      ((front ▸ h.nonempty).replaceFront others)

variable {id : Nat} {buckets : List Bucket}

/-- An id that the underlying pool holds is not in its cache, so it can be released
once. -/
theorem release_base (base : d.base.Valid) (held : id ∈ d.base.held) :
    ∃ base', d.base.release id = some (base', true) ∧ IdPool.Gives d.base base' id := by
  obtain ⟨⟨low, high⟩, uncached, -⟩ := IdPool.mem_held.mp held
  obtain ⟨base', released, gives, -⟩ := base.release low high (.inr uncached)
  exact ⟨base', by simpa [held] using released, gives held⟩

/-- Releasing the first id of the detention to the pool. -/
theorem releaseFront (h : Valid d) {bucket : Bucket} {rest : List Bucket}
    (front : d.detention = bucket :: rest) :
    ∃ d' id, d.releaseFront = some (d', id) ∧ Valid d' ∧ SameSettings d d' ∧
      d.entries = (id, bucket.ts) :: d'.entries ∧ d'.base.held = d.base.held.erase id := by
  obtain ⟨d₁, id, taken, h₁, eq₁, split, base⟩ := h.takeFront front
  have held : id ∈ d₁.base.held := by
    rw [base]
    exact h.inBase (id, bucket.ts) (by simp [split])
  obtain ⟨base', released, gives⟩ := release_base h₁.base held
  have distinct := h.distinct
  rw [split, map_cons, nodup_cons] at distinct
  obtain ⟨h', eq'⟩ := h₁.withBase gives.valid gives.same (by
    intro entry mem
    rw [gives.held, Finset.mem_erase]
    exact ⟨fun eq => distinct.1 (mem_map.mpr ⟨entry, mem, eq⟩), h₁.inBase entry mem⟩)
  refine ⟨{ d₁ with base := base' }, id, ?_, h', eq₁.trans eq', split, ?_⟩
  · simp [IdPoolDetainer.releaseFront, taken, released]
  · rw [← base]
    exact gives.held

/-- Entries that have left the detention for the pool. -/
structure Released (d d' : IdPoolDetainer) (gone : List (Nat × Nat)) : Prop where
  valid : Valid d'
  same : SameSettings d d'
  entries : d.entries = gone ++ d'.entries
  held : d'.base.held = d.base.held \ (gone.map Prod.fst).toFinset

theorem released_nil (h : Valid d) : Released d d [] :=
  ⟨h, SameSettings.refl d, rfl, by simp⟩

/-- Releasing from the front: what leaves had a time stamp that says so. -/
theorem releaseWhile (h : Valid d) (leaves : Nat → Bool) (n : Nat) :
    ∃ d' gone, IdPoolDetainer.releaseWhile leaves n d = some (d', gone.map Prod.fst) ∧
      Released d d' gone ∧ ∀ entry ∈ gone, leaves entry.2 = true := by
  induction n generalizing d with
  | zero => exact ⟨d, [], rfl, h.released_nil, fun _ mem => absurd mem (by simp)⟩
  | succ n ih =>
    rw [IdPoolDetainer.releaseWhile]
    cases front : d.detention with
    | nil => exact ⟨d, [], rfl, h.released_nil, fun _ mem => absurd mem (by simp)⟩
    | cons bucket rest =>
      cases expired : leaves bucket.ts with
      | false =>
        simp only [expired, Bool.false_eq_true]
        exact ⟨d, [], rfl, h.released_nil, fun _ mem => absurd mem (by simp)⟩
      | true =>
        obtain ⟨d₁, id, released, h₁, eq₁, split, held⟩ := h.releaseFront front
        obtain ⟨d', gone, continued, result, leave⟩ := ih h₁
        refine ⟨d', (id, bucket.ts) :: gone, ?_, ⟨result.valid, eq₁.trans result.same, ?_, ?_⟩, ?_⟩
        · simp [expired, released, continued]
        · rw [split, result.entries, cons_append]
        · rw [result.held, held]
          ext other
          simp only [Finset.mem_sdiff, Finset.mem_erase, map_cons, toFinset_cons, Finset.mem_insert]
          tauto
        · intro entry mem
          rcases mem_cons.mp mem with rfl | mem
          · exact expired
          · exact leave entry mem

theorem releaseSome (h : Valid d) (ts : Nat) :
    ∃ d' gone, d.releaseSome ts = some (d', gone.map Prod.fst) ∧ Released d d' gone ∧
      ∀ entry ∈ gone, entry.2 + d.bucketTime + d.detainTime < ts := by
  obtain ⟨d', gone, result, released, leave⟩ := h.releaseWhile
    (fun bucketTs => decide (bucketTs + d.bucketTime + d.detainTime < ts))
    (toInt d.releaseCount).toNat
  exact ⟨d', gone, result, released, fun entry mem => by simpa using leave entry mem⟩

theorem makeRoom (h : Valid d) (overcrowd : Bool) :
    ∃ d' gone, d.makeRoom overcrowd = some (d', gone.map Prod.fst) ∧ Released d d' gone := by
  unfold IdPoolDetainer.makeRoom
  split
  · obtain ⟨d', gone, result, released, -⟩ := h.releaseWhile (fun _ => true)
      (toInt (d.detainedCount - d.maxDetentionSize + 1)).toNat
    exact ⟨d', gone, result, released⟩
  · exact ⟨d, [], rfl, h.released_nil⟩

theorem set_perm (kind : BitsetKind) {data : List Nat} (fresh : id ∉ data)
    (width : kind = .deque → id < 2 ^ 32) :
    ∃ data', SparseBitset.set kind data id = (data', true) ∧ data'.Perm (id :: data) := by
  cases kind with
  | judy =>
    refine ⟨data.orderedInsert (· ≤ ·) id, ?_, perm_orderedInsert _ _ _⟩
    simp [SparseBitset.set, fresh]
  | deque =>
    refine ⟨data ++ [id], ?_, perm_append_singleton id data⟩
    simp only [SparseBitset.set, Nat.mod_eq_of_lt (width rfl)]

/-- The last bucket is young enough for the time stamp. -/
theorem openBucket (d : IdPoolDetainer) (ts : Nat) :
    ∃ front back, d.openBucket ts = front ++ [back] ∧ ts ≤ back.ts + d.bucketTime ∧
      entriesOf (front ++ [back]) = d.entries ∧ (∀ bucket ∈ front, bucket ∈ d.detention) := by
  unfold IdPoolDetainer.openBucket
  rcases eq_nil_or_concat d.detention with empty | ⟨front, back, parts⟩
  · refine ⟨[], { ts := ts, data := [] }, by simp [empty], Nat.le_add_right _ _, ?_, ?_⟩
    · simp [entries, empty]
    · simp
  rw [concat_eq_append] at parts
  simp only [parts, getLast?_append, getLast?_singleton, Option.some_or]
  by_cases old : back.ts + d.bucketTime < ts
  · rw [if_pos old]
    refine ⟨front ++ [back], { ts := ts, data := [] }, rfl, Nat.le_add_right _ _, ?_, ?_⟩
    · simp [entries, parts]
    · simp
  · rw [if_neg old]
    refine ⟨front, back, rfl, Nat.not_lt.mp old, by simp [entries, parts], ?_⟩
    intro bucket mem
    simp [mem]

/-- Putting a held id into detention. -/
theorem insert (h : Valid d) (held : id ∈ d.base.held) (free : id ∉ d.detained) (ts : Nat) :
    ∃ d' bucketTs, d.insert id ts = (d', [.added id ts]) ∧ Valid d' ∧ SameSettings d d' ∧
      d'.entries.Perm ((id, bucketTs) :: d.entries) ∧ ts ≤ bucketTs + d.bucketTime ∧
      d'.base = d.base := by
  obtain ⟨front, back, buckets, young, eq, kept⟩ := openBucket d ts
  have inRange := (IdPool.mem_held.mp held).1
  have fresh : id ∉ back.data := by
    intro mem
    apply free
    rw [mem_detained, ← eq]
    exact ⟨back.ts, by simp [mem]⟩
  obtain ⟨data, set, perm⟩ := set_perm d.kind fresh
    fun deque => Nat.lt_of_le_of_lt inRange.2 (h.width deque)
  let d' : IdPoolDetainer :=
    { d with
      detention := front ++ [{ back with data := data }]
      detainedCount := d.detainedCount + 1 }
  have added : d'.entries.Perm ((id, back.ts) :: d.entries) := by
    have mapped := perm.map fun id => (id, back.ts)
    have whole := (mapped.append_left (entriesOf front)).trans perm_middle
    have prev : d.entries =
        entriesOf front ++ back.data.map fun id => (id, back.ts) := by simp [← eq]
    rw [prev]
    simpa [entries, d'] using whole
  refine ⟨d', back.ts, ?_, h.of_added added rfl rfl rfl ?_ held free,
    ⟨rfl, rfl, rfl, rfl, rfl⟩, added, young, rfl⟩
  · simp [IdPoolDetainer.insert, buckets, set, d']
  · intro bucket mem
    rcases mem_append.mp mem with mem | last
    · exact h.nonempty bucket (kept bucket mem)
    rw [mem_singleton.mp last]
    intro empty
    have lengths := perm.length_eq
    simp only at empty
    simp [empty] at lengths

/-- Removing an id from the bucket that has it. -/
theorem unsetFirst_spec (ne : NonemptyBuckets buckets) : (∃ ts, (id, ts) ∈ entriesOf buckets) →
      ∃ buckets' ts, unsetFirst id buckets = some buckets' ∧ NonemptyBuckets buckets' ∧
        (entriesOf buckets).Perm ((id, ts) :: entriesOf buckets') := by
  induction buckets with
  | nil => simp
  | cons bucket rest ih =>
    rintro ⟨ts, mem⟩
    have restNonempty : NonemptyBuckets rest := fun other mem => ne other (mem_cons_of_mem _ mem)
    by_cases here : id ∈ bucket.data
    · refine ⟨replaceFront bucket (SparseBitset.unset bucket.data id).1 rest, bucket.ts,
        by simp only [unsetFirst, if_pos here], ne.replaceFront _, ?_⟩
      have perm := (perm_cons_erase here).map fun id => (id, bucket.ts)
      simpa [SparseBitset.unset, here] using perm.append_right (entriesOf rest)
    have later : (id, ts) ∈ entriesOf rest := by
      rw [entriesOf_cons, mem_append] at mem
      rcases mem with inBucket | later
      · simp only [mem_map] at inBucket
        obtain ⟨other, inside, rfl, -⟩ := inBucket
        exact absurd inside here
      · exact later
    obtain ⟨buckets', bucketTs, found, ne', perm⟩ := ih restNonempty ⟨ts, later⟩
    refine ⟨bucket :: buckets', bucketTs, by simp [unsetFirst, here, found], ?_, ?_⟩
    · intro other inList
      rcases mem_cons.mp inList with rfl | inList
      · exact ne other mem_cons_self
      · exact ne' other inList
    · rw [entriesOf_cons]
      exact (perm.append_left _).trans perm_middle

theorem unsetFirst_none
    (absent : ∀ ts, (id, ts) ∉ entriesOf buckets) : unsetFirst id buckets = none := by
  induction buckets with
  | nil => rfl
  | cons bucket rest ih =>
    have here : id ∉ bucket.data := by
      intro mem
      exact absent bucket.ts (by simp [mem])
    have later : ∀ ts, (id, ts) ∉ entriesOf rest := by
      intro ts mem
      exact absent ts (by simp [mem])
    simp [unsetFirst, here, ih later]

end Valid

end IdPoolDetainer

end LeilFS.Ids
