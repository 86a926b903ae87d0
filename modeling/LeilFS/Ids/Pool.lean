/-
Module: LeilFS.Ids.Pool
Purpose: The pool of ids: a cache in front of blocks of bits and a list of blocks
  with free ids.
Trusted boundary: none
-/
import LeilFS.Ids.Block

namespace LeilFS.Ids

open Nat IdPoolBlock List

/-!
Ids from one to a bound are spread over blocks of equal size; the id zero of the
first block is reserved.  Blocks are added when they are needed.  The list of
blocks with free ids may also hold blocks that have been used up since, and some of
them twice; it is cleaned at its front.

The first element of the cache, a hash set, is an arbitrary one: `acquire` gets the
choice as an argument.  As for blocks, nothing is returned where the code stops.

[SPEC id_pool.h:258-505]
-/

/-- A pool of ids. -/
structure IdPool where
  cache : List Nat
  blocks : List IdPoolBlock
  freeList : List Nat
  usedCount : UInt64
  maxId : Nat
  maxCacheSize : Nat
  maxBlockCount : Nat
  blockSize : Nat
deriving Repr, DecidableEq

namespace IdPool

/-- The size of the last block, or of a block in front of it.  A block counts its
ids with 32 bits. -/
def sizeOfBlock (pool : IdPool) (block : Nat) : Nat :=
  let left := pool.maxId - pool.blockSize * block
  (if left < pool.blockSize then left + 1 else pool.blockSize) % 2 ^ 32

/-- Adds one block, at the end of the list of blocks with free ids. -/
def addBlock (pool : IdPool) : IdPool :=
  { pool with
    blocks := pool.blocks ++ [IdPoolBlock.new (pool.sizeOfBlock pool.blocks.length)]
    freeList := pool.freeList ++ [pool.blocks.length] }

/-- Adds some blocks. -/
def addBlocks : Nat → IdPool → IdPool
  | 0, pool => pool
  | n + 1, pool => addBlocks n pool.addBlock

/-- Adds blocks, unless there would be too many. -/
def addFreeBlocks (pool : IdPool) (count : Int) : IdPool × Bool :=
  if count ≤ 0 ∨ pool.maxBlockCount < pool.blocks.length + count.toNat then (pool, false)
  else (addBlocks count.toNat pool, true)

/-- Whether a block has no free id. -/
def exhausted (pool : IdPool) (block : Nat) : Bool :=
  match pool.blocks[block]? with
  | some b => b.freeCount == 0
  | none => false

/-- Removes used up blocks from the front of the list. -/
def dropExhausted (pool : IdPool) : IdPool :=
  { pool with freeList := pool.freeList.dropWhile pool.exhausted }

@[simp] theorem dropExhausted_blocks (pool : IdPool) :
    pool.dropExhausted.blocks = pool.blocks := rfl

@[simp] theorem dropExhausted_maxBlockCount (pool : IdPool) :
    pool.dropExhausted.maxBlockCount = pool.maxBlockCount := rfl

/-- Takes an id from the block at the front of the list. -/
def acquireFront (pool : IdPool) : Option (IdPool × Nat) := do
  let block ← pool.freeList.head?
  let b ← pool.blocks[block]?
  let (b', id) ← b.acquire
  some ({ pool with
      blocks := pool.blocks.set block b'
      freeList := if b'.freeCount = 0 then pool.freeList.tail else pool.freeList
      usedCount := pool.usedCount + 1 },
    id + block * pool.blockSize)

/-- Takes an id from the pool; zero if there is none. -/
def acquire (pool : IdPool) (choice : Nat) : Option (IdPool × Nat) :=
  match pool.cache[choice % pool.cache.length]? with
  | some id =>
      some ({ pool with cache := pool.cache.erase id, usedCount := pool.usedCount + 1 }, id)
  | none =>
      let pool := pool.dropExhausted
      if pool.freeList = [] then
        let (pool, added) := pool.addFreeBlocks 1
        if added then pool.acquireFront else some (pool, 0)
      else pool.acquireFront

/-- Returns an id to a block. -/
def releaseToBlock (pool : IdPool) (id : Nat) (b : IdPoolBlock) : Option (IdPool × Bool) :=
  (b.release (id % pool.blockSize)).map fun (b', released) =>
    let pool := { pool with blocks := pool.blocks.set (id / pool.blockSize) b' }
    if released then
      ({ pool with
          freeList := if b'.freeCount = 1 then id / pool.blockSize :: pool.freeList
            else pool.freeList
          usedCount := pool.usedCount - 1 }, true)
    else (pool, false)

/-- Returns an id to the pool; false if it was already there. -/
def release (pool : IdPool) (id : Nat) : Option (IdPool × Bool) :=
  if id = 0 ∨ pool.maxId < id then some (pool, false)
  else
    match pool.blocks[id / pool.blockSize]? with
    | none => some (pool, false)
    | some b =>
        if pool.cache.length < pool.maxCacheSize then
          if id ∈ pool.cache then some (pool, false)
          else if b.checkIfAvailable (id % pool.blockSize) then some (pool, false)
          else
            some ({ pool with cache := id :: pool.cache, usedCount := pool.usedCount - 1 },
              true)
        else pool.releaseToBlock id b

/-- Marks an id in its block. -/
def markInBlock (pool : IdPool) (id : Nat) : Option (IdPool × Bool) := do
  let b ← pool.blocks[id / pool.blockSize]?
  let (b', marked) ← b.markAsAcquired (id % pool.blockSize)
  let pool := { pool with blocks := pool.blocks.set (id / pool.blockSize) b' }
  -- Only the front of the list is cleaned, so that the cost stays constant.
  if marked then some ({ pool with usedCount := pool.usedCount + 1 }.dropExhausted, true)
  else some (pool, false)

/-- The number of blocks up to one that is not there yet, converted to an `int`. -/
def missingBlocks (pool : IdPool) (block : Nat) : Int :=
  Int.bmod (block + 1 - pool.blocks.length : Int) (2 ^ 32)

/-- Marks an id as acquired; false if it was acquired before. -/
def markAsAcquired (pool : IdPool) (id : Nat) : Option (IdPool × Bool) :=
  if id ∈ pool.cache then
    some ({ pool with cache := pool.cache.erase id, usedCount := pool.usedCount + 1 }, true)
  else
    let block := id / pool.blockSize
    if pool.blocks.length ≤ block then
      let (pool, added) := pool.addFreeBlocks (pool.missingBlocks block)
      if added then pool.markInBlock id else some (pool, false)
    else pool.markInBlock id

/-- Whether the block of an id has it. -/
def blockFree (pool : IdPool) (id : Nat) : Bool :=
  match pool.blocks[id / pool.blockSize]? with
  | some b => b.checkIfAvailable (id % pool.blockSize)
  | none => true

/-- Whether an id can be acquired. -/
def checkIfAvailable (pool : IdPool) (id : Nat) : Bool :=
  if id = 0 ∨ pool.maxId < id then false
  else if id ∈ pool.cache then true
  else pool.blockFree id

/-- The number of acquired ids. -/
def size (pool : IdPool) : Nat := pool.usedCount.toNat

/-- The block size, rounded up to whole words. -/
def roundedBlockSize (maxSize blockSize : Nat) : Nat :=
  let size := if maxSize < blockSize then maxSize + 1 else blockSize
  64 * ((size + 64 - 1) / 64)

/-- A pool without blocks. -/
def bare (maxSize blockSize cacheSize : Nat) : IdPool :=
  { cache := [], blocks := [], freeList := [], usedCount := 0
    maxId := maxSize
    maxCacheSize := if maxSize < cacheSize then maxSize + 1 else cacheSize
    maxBlockCount := maxSize / roundedBlockSize maxSize blockSize + 1
    blockSize := roundedBlockSize maxSize blockSize }

/-- A pool of the ids up to `maxSize`; nothing for blocks of size zero, where the
code divides by zero.  The id zero is reserved. -/
def new (maxSize blockSize cacheSize : Nat) : Option IdPool :=
  if roundedBlockSize maxSize blockSize = 0 then none
  else
    ((bare maxSize blockSize cacheSize).markAsAcquired 0).map fun (pool, _) =>
      { pool with usedCount := 0 }

/-!
What a pool is for: a set of acquired ids.  The representation is sound when the
blocks are, when every block with a free id is in the list, and when no cached id
is also free in its block.
-/

/-- The acquired ids. -/
def held (pool : IdPool) : Finset Nat :=
  (Finset.Icc 1 pool.maxId).filter fun id => pool.checkIfAvailable id = false

/-- The representation invariant, without the reservation of zero. -/
structure Sound (pool : IdPool) : Prop where
  positive : 0 < pool.blockSize
  small : pool.blockSize ≤ 64 * maxWords
  blockCount : pool.maxBlockCount = pool.maxId / pool.blockSize + 1
  bounded : pool.blocks.length ≤ pool.maxBlockCount
  valid : ∀ i b, pool.blocks[i]? = some b → b.Valid ∧ b.maxSize = pool.sizeOfBlock i
  listed : ∀ i b, pool.blocks[i]? = some b → 0 < b.freeCount → i ∈ pool.freeList
  inBlocks : ∀ i ∈ pool.freeList, i < pool.blocks.length
  distinct : pool.cache.Nodup
  cached : ∀ id ∈ pool.cache, 1 ≤ id ∧ id ≤ pool.maxId ∧ pool.blockFree id = false

/-- The invariant of a pool. -/
structure Valid (pool : IdPool) : Prop extends Sound pool where
  inWord : pool.maxId < 2 ^ 64
  reserved : pool.blockFree 0 = false
  used : pool.usedCount.toNat = pool.held.card

/-- The parameters of a pool do not change. -/
structure SameParameters (pool pool' : IdPool) : Prop where
  maxId : pool'.maxId = pool.maxId
  maxCacheSize : pool'.maxCacheSize = pool.maxCacheSize
  blockSize : pool'.blockSize = pool.blockSize

theorem mem_held {pool : IdPool} {id : Nat} :
    id ∈ pool.held ↔ (1 ≤ id ∧ id ≤ pool.maxId) ∧ id ∉ pool.cache ∧ pool.blockFree id = false := by
  rw [held, Finset.mem_filter, Finset.mem_Icc]
  constructor
  · rintro ⟨range, avail⟩
    rw [checkIfAvailable, if_neg (by omega)] at avail
    split at avail
    · cases avail
    · exact ⟨range, ‹_›, avail⟩
  · rintro ⟨range, uncached, taken⟩
    refine ⟨range, ?_⟩
    rw [checkIfAvailable, if_neg (by omega), if_neg uncached, taken]

theorem checkIfAvailable_iff {pool : IdPool} {id : Nat} (low : 1 ≤ id)
    (high : id ≤ pool.maxId) : pool.checkIfAvailable id = true ↔ id ∉ pool.held := by
  simp [held, low, high]

theorem card_held_le (pool : IdPool) : pool.held.card ≤ pool.maxId := by
  have := Finset.card_filter_le (Finset.Icc 1 pool.maxId) fun id => pool.checkIfAvailable id = false
  simpa [held] using this

/-!
Places of ids.
-/

namespace Sound

variable {pool : IdPool}

section

variable (sound : Sound pool)
include sound

theorem sizeOfBlock_eq (i : Nat) : pool.sizeOfBlock i =
      if pool.maxId - pool.blockSize * i < pool.blockSize
        then pool.maxId - pool.blockSize * i + 1 else pool.blockSize := by
  have small := sound.small
  have words : 64 * maxWords < 2 ^ 32 := by decide
  apply mod_eq_of_lt
  split <;> omega

theorem sizeOfBlock_pos (i : Nat) : 0 < pool.sizeOfBlock i := by
  have := sound.positive
  rw [sound.sizeOfBlock_eq]
  split <;> omega

theorem sizeOfBlock_le (i : Nat) : pool.sizeOfBlock i ≤ pool.blockSize := by
  rw [sound.sizeOfBlock_eq]
  split <;> omega

theorem packs_sizeOfBlock (i : Nat) : packs (pool.sizeOfBlock i) ≤ maxWords := by
  have size := sound.sizeOfBlock_le i
  have small := sound.small
  unfold packs
  omega

/-- The place of an id lies in its block. -/
theorem mod_lt_sizeOfBlock {id : Nat} (le : id ≤ pool.maxId) :
    id % pool.blockSize < pool.sizeOfBlock (id / pool.blockSize) := by
  have low := mod_lt id sound.positive
  have split := div_add_mod id pool.blockSize
  rw [sound.sizeOfBlock_eq]
  split <;> omega

theorem div_lt_blockCount {id : Nat} (le : id ≤ pool.maxId) :
    id / pool.blockSize < pool.maxBlockCount := by
  rw [sound.blockCount]
  exact Nat.lt_succ_of_le (Nat.div_le_div_right le)

/-- A place in a block belongs to an id of the pool. -/
theorem id_of_place {i p : Nat} (block : i < pool.maxBlockCount) (place : p < pool.sizeOfBlock i) :
    p + i * pool.blockSize ≤ pool.maxId ∧ (p + i * pool.blockSize) / pool.blockSize = i ∧
      (p + i * pool.blockSize) % pool.blockSize = p := by
  have low : p < pool.blockSize := lt_of_lt_of_le place (sound.sizeOfBlock_le i)
  rw [sound.blockCount] at block
  have start : pool.blockSize * i ≤ pool.maxId :=
    (mul_le_mul_left _ (le_of_lt_succ block)).trans (mul_div_le _ _)
  refine ⟨?_, ?_, ?_⟩
  · rw [sound.sizeOfBlock_eq] at place
    rw [mul_comm i]
    split at place <;> omega
  · rw [add_mul_div_right _ _ sound.positive, div_eq_of_lt low, zero_add]
  · rw [add_mul_mod_self_right, mod_eq_of_lt low]

/-- An id is free in its block when its place is. -/
theorem blockFree_iff {id : Nat} (le : id ≤ pool.maxId)
    {b : IdPoolBlock} (found : pool.blocks[id / pool.blockSize]? = some b) :
    pool.blockFree id = true ↔ id % pool.blockSize ∈ b.free := by
  have size := (sound.valid _ _ found).2
  have place := sound.mod_lt_sizeOfBlock le
  rw [blockFree, found, mem_free, size]
  simp [place]

end

/-!
The parts of an operation: one block changes, used up blocks leave the list, new
blocks are added.
-/

/-- A block is replaced by one of the same size. -/
structure Replaces (pool pool' : IdPool) (i : Nat) (b b' : IdPoolBlock) : Prop where
  found : pool.blocks[i]? = some b
  valid : b'.Valid
  size : b'.maxSize = b.maxSize
  blocks : pool'.blocks = pool.blocks.set i b'
  same : SameParameters pool pool'
  count : pool'.maxBlockCount = pool.maxBlockCount

theorem Replaces.blockFree {pool' : IdPool} {i : Nat} {b b' : IdPoolBlock}
    (change : Replaces pool pool' i b b') (id : Nat) : pool'.blockFree id =
      if id / pool.blockSize = i then b'.checkIfAvailable (id % pool.blockSize)
      else pool.blockFree id := by
  have inside := (List.getElem?_eq_some_iff.mp change.found).1
  unfold IdPool.blockFree
  rw [change.blocks, change.same.blockSize, List.getElem?_set]
  by_cases eq : i = id / pool.blockSize
  · rw [if_pos eq, if_pos (eq ▸ inside), if_pos eq.symm]
  · rw [if_neg eq, if_neg (Ne.symm eq)]

/-- One block is replaced. -/
theorem replace (sound : Sound pool) {pool' : IdPool} {i : Nat} {b b' : IdPoolBlock}
    (change : Replaces pool pool' i b b') (kept : ∀ j ∈ pool.freeList, j ≠ i → j ∈ pool'.freeList)
    (own : 0 < b'.freeCount → i ∈ pool'.freeList)
    (inBlocks : ∀ j ∈ pool'.freeList, j < pool.blocks.length) (nodup : pool'.cache.Nodup)
    (cached : ∀ id ∈ pool'.cache, 1 ≤ id ∧ id ≤ pool.maxId ∧ pool'.blockFree id = false) :
    Sound pool' := by
  obtain ⟨found, blockValid, size, blocks, eq, count⟩ := change
  have sizes : ∀ j, pool'.sizeOfBlock j = pool.sizeOfBlock j := by
    intro j
    simp only [sizeOfBlock, eq.maxId, eq.blockSize]
  have lookup : ∀ j c, pool'.blocks[j]? = some c → (j = i ∧ c = b') ∨
      (j ≠ i ∧ pool.blocks[j]? = some c) := by
    intro j c at'
    rw [blocks, List.getElem?_set] at at'
    rcases eq_or_ne i j with rfl | ne
    · rw [if_pos rfl] at at'
      split at at'
      · exact .inl ⟨rfl, (Option.some.inj at').symm⟩
      · cases at'
    · rw [if_neg ne] at at'
      exact .inr ⟨ne.symm, at'⟩
  refine ⟨?_, ?_, ?_, ?_, ?_, ?_, ?_, nodup, ?_⟩
  · rw [eq.blockSize]
    exact sound.positive
  · rw [eq.blockSize]
    exact sound.small
  · rw [count, eq.maxId, eq.blockSize]
    exact sound.blockCount
  · rw [blocks, length_set, count]
    exact sound.bounded
  · intro j c at'
    rw [sizes]
    rcases lookup j c at' with ⟨rfl, rfl⟩ | ⟨-, prev⟩
    · exact ⟨blockValid, size.trans (sound.valid _ _ found).2⟩
    · exact sound.valid j c prev
  · intro j c at' some
    rcases lookup j c at' with ⟨rfl, rfl⟩ | ⟨ne, prev⟩
    · exact own some
    · exact kept j (sound.listed j c prev some) ne
  · rw [blocks, length_set]
    exact inBlocks
  · rw [eq.maxId]
    exact cached

theorem mem_dropExhausted {i : Nat} (mem : i ∈ pool.freeList)
    (some : pool.exhausted i = false) : i ∈ pool.dropExhausted.freeList := by
  rw [← takeWhile_append_dropWhile (p := pool.exhausted) (l := pool.freeList), mem_append] at mem
  rcases mem with front | back
  · have := mem_takeWhile_imp front
    rw [some] at this
    cases this
  · exact back

theorem exhausted_of_count {i : Nat} {b : IdPoolBlock} (found : pool.blocks[i]? = some b)
    (some : 0 < b.freeCount) : pool.exhausted i = false := by
  simp only [exhausted, found, beq_eq_false_iff_ne]
  omega

theorem dropExhausted (sound : Sound pool) : Sound pool.dropExhausted :=
  { sound with
    listed := fun i b found some =>
      mem_dropExhausted (sound.listed i b found some) (exhausted_of_count found some)
    inBlocks := fun i mem => sound.inBlocks i ((dropWhile_sublist _).mem mem) }

/-- The block at the front of a cleaned list has a free id. -/
theorem front_of_dropExhausted (sound : Sound pool) {block : Nat} {rest : List Nat}
    (front : pool.dropExhausted.freeList = block :: rest) :
    ∃ b, pool.blocks[block]? = some b ∧ 0 < b.freeCount := by
  have inside := sound.dropExhausted.inBlocks block (by simp [front])
  refine ⟨_, getElem?_eq_getElem inside, ?_⟩
  have stopped : ¬ pool.exhausted block = true := by
    have head := head?_dropWhile_not pool.exhausted pool.freeList
    have cleaned : pool.freeList.dropWhile pool.exhausted = block :: rest := front
    simpa [cleaned] using head
  have found : pool.blocks[block]? = some _ := getElem?_eq_getElem inside
  simp only [exhausted, found, beq_iff_eq] at stopped
  omega

theorem blockFree_addBlock (sound : Sound pool) (id : Nat) :
    pool.addBlock.blockFree id = pool.blockFree id := by
  have size := sound.sizeOfBlock_pos pool.blocks.length
  simp only [blockFree, addBlock, getElem?_append]
  by_cases lt : id / pool.blockSize < pool.blocks.length
  · rw [if_pos lt]
  rw [if_neg lt, getElem?_eq_none (by omega : pool.blocks.length ≤ _)]
  by_cases first : id / pool.blockSize - pool.blocks.length = 0
  · simp [first, IdPoolBlock.checkIfAvailable, IdPoolBlock.new, size]
  · have le : 1 ≤ id / pool.blockSize - pool.blocks.length := by omega
    simp [getElem?_eq_none, le]

theorem addBlock (sound : Sound pool) (lt : pool.blocks.length < pool.maxBlockCount) :
    Sound pool.addBlock := by
  have lookup : ∀ i b, pool.addBlock.blocks[i]? = some b →
      pool.blocks[i]? = some b ∨ (i = pool.blocks.length ∧
        b = IdPoolBlock.new (pool.sizeOfBlock pool.blocks.length)) := by
    intro i b found
    simp only [IdPool.addBlock, getElem?_append] at found
    split at found
    · exact .inl found
    right
    rw [getElem?_singleton] at found
    split at found
    · exact ⟨by omega, (Option.some.inj found).symm⟩
    · cases found
  refine ⟨sound.positive, sound.small, sound.blockCount, ?_, ?_, ?_, ?_, sound.distinct, ?_⟩
  · simp only [IdPool.addBlock, length_append, length_singleton]
    omega
  · intro i b found
    rcases lookup i b found with prev | ⟨rfl, rfl⟩
    · exact sound.valid i b prev
    · exact ⟨valid_new (sound.sizeOfBlock_pos _) (sound.packs_sizeOfBlock _), rfl⟩
  · intro i b found some
    simp only [IdPool.addBlock, mem_append, mem_singleton]
    rcases lookup i b found with prev | ⟨rfl, -⟩
    · exact .inl (sound.listed i b prev some)
    · exact .inr rfl
  · intro i mem
    simp only [IdPool.addBlock, mem_append, mem_singleton, length_append, length_singleton] at mem ⊢
    rcases mem with prev | rfl
    · have := sound.inBlocks i prev
      omega
    · omega
  · intro id mem
    rw [sound.blockFree_addBlock]
    exact sound.cached id mem

/-- The pool has more blocks, and nothing else is different. -/
structure Extended (pool pool' : IdPool) : Prop where
  sound : Sound pool'
  same : SameParameters pool pool'
  cache : pool'.cache = pool.cache
  usedCount : pool'.usedCount = pool.usedCount
  blockFree : ∀ id, pool'.blockFree id = pool.blockFree id

theorem addBlocks (sound : Sound pool) (n : Nat)
    (le : pool.blocks.length + n ≤ pool.maxBlockCount) : Extended pool (addBlocks n pool) ∧
      (IdPool.addBlocks n pool).blocks.length = pool.blocks.length + n := by
  induction n generalizing pool with
  | zero => exact ⟨⟨sound, ⟨rfl, rfl, rfl⟩, rfl, rfl, fun _ => rfl⟩, rfl⟩
  | succ n ih =>
    have more : pool.addBlock.blocks.length = pool.blocks.length + 1 := by
      simp [IdPool.addBlock]
    have le' : pool.addBlock.blocks.length + n ≤ pool.addBlock.maxBlockCount := by
      have : pool.addBlock.maxBlockCount = pool.maxBlockCount := rfl
      omega
    obtain ⟨rest, length⟩ := ih (sound.addBlock (by omega)) le'
    refine ⟨⟨rest.sound, ⟨rest.same.maxId, rest.same.maxCacheSize, rest.same.blockSize⟩,
      rest.cache, rest.usedCount, fun id => ?_⟩, ?_⟩
    · exact (rest.blockFree id).trans (sound.blockFree_addBlock id)
    · rw [IdPool.addBlocks, length]
      omega

/-- `addFreeBlocks` adds the blocks exactly when there is room for them. -/
theorem addFreeBlocks (sound : Sound pool) (count : Int) (pos : 0 < count)
    (le : pool.blocks.length + count.toNat ≤ pool.maxBlockCount) :
    ∃ pool', pool.addFreeBlocks count = (pool', true) ∧ Extended pool pool' ∧
      pool'.blocks.length = pool.blocks.length + count.toNat := by
  refine ⟨_, ?_, sound.addBlocks count.toNat le⟩
  rw [IdPool.addFreeBlocks, if_neg]
  omega

end Sound

theorem held_congr {pool pool' : IdPool} (maxId : pool'.maxId = pool.maxId)
    (cache : pool'.cache = pool.cache) (blockFree : ∀ id, pool'.blockFree id = pool.blockFree id) :
    pool'.held = pool.held := by
  ext id
  rw [mem_held, mem_held, maxId, cache, blockFree]

/-- An operation takes a free id. -/
structure Takes (pool pool' : IdPool) (id : Nat) : Prop where
  valid : Valid pool'
  same : SameParameters pool pool'
  low : 1 ≤ id
  high : id ≤ pool.maxId
  fresh : id ∉ pool.held
  held : pool'.held = insert id pool.held

/-- An operation gives an acquired id back. -/
structure Gives (pool pool' : IdPool) (id : Nat) : Prop where
  valid : Valid pool'
  same : SameParameters pool pool'
  member : id ∈ pool.held
  held : pool'.held = pool.held.erase id

namespace Valid

variable {pool pool' : IdPool} {id : Nat}

theorem takes (valid : Valid pool) (sound : Sound pool') (eq : SameParameters pool pool')
    (reserved : pool'.blockFree 0 = false) (low : 1 ≤ id) (high : id ≤ pool.maxId)
    (fresh : id ∉ pool.held) (held : pool'.held = insert id pool.held)
    (used : pool'.usedCount = pool.usedCount + 1) : Takes pool pool' id := by
  refine ⟨⟨sound, eq.maxId ▸ valid.inWord, reserved, ?_⟩, eq, low, high, fresh, held⟩
  have count : pool'.held.card = pool.held.card + 1 := by
    rw [held, Finset.card_insert_of_notMem fresh]
  have bound := pool'.card_held_le
  rw [eq.maxId] at bound
  have inWord := valid.inWord
  rw [used, UInt64.toNat_add, valid.used, count, UInt64.toNat_one]
  exact mod_eq_of_lt (by omega)

theorem gives (valid : Valid pool) (sound : Sound pool')
    (eq : SameParameters pool pool') (reserved : pool'.blockFree 0 = false)
    (mem : id ∈ pool.held) (held : pool'.held = pool.held.erase id)
    (used : pool'.usedCount = pool.usedCount - 1) : Gives pool pool' id := by
  refine ⟨⟨sound, eq.maxId ▸ valid.inWord, reserved, ?_⟩, eq, mem, held⟩
  have pos : 0 < pool.held.card := Finset.card_pos.mpr ⟨id, mem⟩
  have one : (1 : UInt64) ≤ pool.usedCount := by
    rw [UInt64.le_iff_toNat_le, valid.used]
    exact pos
  rw [used, UInt64.toNat_sub_of_le _ _ one, valid.used, held, Finset.card_erase_of_mem mem]
  rfl

theorem of_extended (valid : Valid pool) (h : Sound.Extended pool pool') :
    Valid pool' ∧ pool'.held = pool.held := by
  have eq := held_congr h.same.maxId h.cache h.blockFree
  refine ⟨⟨h.sound, h.same.maxId ▸ valid.inWord, ?_, ?_⟩, eq⟩
  · rw [h.blockFree]
    exact valid.reserved
  · rw [h.usedCount, eq]
    exact valid.used

theorem dropExhausted (valid : Valid pool) : Valid pool.dropExhausted :=
  ⟨valid.toSound.dropExhausted, valid.inWord, valid.reserved, valid.used⟩

/-- A free place of a block is the place of an id that nobody has. -/
theorem fresh_of_place (valid : Valid pool) {block p : Nat} {b : IdPoolBlock}
    (found : pool.blocks[block]? = some b) (free : p ∈ b.free) :
    let id := p + block * pool.blockSize
    1 ≤ id ∧ id ≤ pool.maxId ∧ id / pool.blockSize = block ∧ id % pool.blockSize = p ∧
      pool.blockFree id = true := by
  intro id
  have inside := (List.getElem?_eq_some_iff.mp found).1
  have place := (mem_free.mp free).1
  rw [(valid.toSound.valid _ _ found).2] at place
  obtain ⟨high, quotient, remainder⟩ :=
    valid.toSound.id_of_place (lt_of_lt_of_le inside valid.bounded) place
  have isFree : pool.blockFree id = true := by
    rw [valid.toSound.blockFree_iff high (b := b) (by rw [quotient]; exact found), remainder]
    exact free
  refine ⟨?_, high, quotient, remainder, isFree⟩
  -- Zero is reserved.
  rcases Nat.eq_zero_or_pos id with zero | pos
  · rw [zero, valid.reserved] at isFree
    cases isFree
  · exact pos

end Valid

namespace Sound

variable {pool pool' : IdPool} {id : Nat} {value : Bool}

/-- One id becomes free in its block, or taken. -/
structure Changes (pool pool' : IdPool) (id : Nat) (value : Bool) : Prop where
  sound : Sound pool'
  same : SameParameters pool pool'
  cache : pool'.cache = pool.cache
  blockFree : ∀ other ≤ pool.maxId,
    pool'.blockFree other = if other = id then value else pool.blockFree other

section Place

variable (sound : Sound pool) {b b' : IdPoolBlock}
  (change : Replaces pool pool' (id / pool.blockSize) b b')
  (places : ∀ p, p ∈ b'.free ↔ if p = id % pool.blockSize then value = true else p ∈ b.free)
include sound change places

/-- One place of a block changes. -/
theorem blockFree_update {other : Nat} (le : other ≤ pool.maxId) :
    pool'.blockFree other = if other = id then value else pool.blockFree other := by
  rw [change.blockFree]
  by_cases block : other / pool.blockSize = id / pool.blockSize
  · rw [if_pos block]
    have found' : pool.blocks[other / pool.blockSize]? = some b := by rw [block, change.found]
    have place : other % pool.blockSize < b'.maxSize := by
      rw [change.size, (sound.valid _ _ change.found).2, ← block]
      exact sound.mod_lt_sizeOfBlock le
    have avail : b'.checkIfAvailable (other % pool.blockSize) = true ↔
        other % pool.blockSize ∈ b'.free := by
      rw [mem_free]
      simp [place]
    rw [Bool.eq_iff_iff, avail, places]
    by_cases mod : other % pool.blockSize = id % pool.blockSize
    · have eq : other = id := Nat.ext_div_mod block mod
      simp [eq]
    · have ne : other ≠ id := fun eq => mod (by rw [eq])
      rw [if_neg mod, if_neg ne]
      exact (sound.blockFree_iff le found').symm
  · have ne : other ≠ id := fun eq => block (by rw [eq])
    rw [if_neg block, if_neg ne]

/-- The representation is kept if the list has the block while it has free ids. -/
theorem changes (cache : pool'.cache = pool.cache) (uncached : value = true → id ∉ pool.cache)
    (kept : ∀ j ∈ pool.freeList, j ≠ id / pool.blockSize → j ∈ pool'.freeList)
    (own : 0 < b'.freeCount → id / pool.blockSize ∈ pool'.freeList)
    (inBlocks : ∀ j ∈ pool'.freeList, j < pool.blocks.length) : Changes pool pool' id value := by
  have update : ∀ other ≤ pool.maxId, _ := fun _ => sound.blockFree_update change places
  refine ⟨sound.replace change kept own inBlocks (cache ▸ sound.distinct) fun other mem => ?_,
    change.same, cache, update⟩
  rw [cache] at mem
  obtain ⟨low, inside, taken⟩ := sound.cached other mem
  refine ⟨low, inside, ?_⟩
  rw [update other inside, taken]
  split
  next eq => exact Bool.eq_false_iff.mpr fun free => uncached free (eq ▸ mem)
  · rfl

end Place

theorem Changes.mem_held (h : Changes pool pool' id value) {other : Nat} : other ∈ pool'.held ↔
      if other = id then (1 ≤ id ∧ id ≤ pool.maxId) ∧ id ∉ pool.cache ∧ value = false
      else other ∈ pool.held := by
  rw [IdPool.mem_held, IdPool.mem_held, h.same.maxId, h.cache]
  by_cases le : other ≤ pool.maxId
  · rw [h.blockFree other le]
    split <;> simp_all
  · split <;> simp_all

variable {b : IdPoolBlock}

theorem set_found {i : Nat} (found : pool.blocks[i]? = some b) :
    { pool with blocks := pool.blocks.set i b } = pool := by
  have inside := List.getElem?_eq_some_iff.mp found
  rw [← inside.2, List.set_getElem_self]

/-- Marking an id in a block that is there. -/
theorem markInBlock (sound : Sound pool) (high : id ≤ pool.maxId)
    (lt : id / pool.blockSize < pool.blocks.length) :
    ∃ pool', pool.markInBlock id = some (pool', pool.blockFree id) ∧ (pool.blockFree id = true →
        Changes pool pool' id false ∧ pool'.usedCount = pool.usedCount + 1) ∧
      (pool.blockFree id = false → pool' = pool) := by
  have found := getElem?_eq_getElem lt
  generalize pool.blocks[id / pool.blockSize] = b at found
  have blockValid := sound.valid _ _ found
  have place : id % pool.blockSize < b.maxSize := by
    rw [blockValid.2]
    exact sound.mod_lt_sizeOfBlock high
  have isFree := sound.blockFree_iff high found
  obtain ⟨b', marked, valid', free, size, eq⟩ := blockValid.1.markAsAcquired place
  simp only [IdPool.markInBlock, found, marked, Option.bind_eq_bind, Option.bind_some]
  cases prev : pool.blockFree id with
  | false =>
    have taken : id % pool.blockSize ∉ b.free := by simp [← isFree, prev]
    exact ⟨pool, by simp [taken, eq taken, set_found found], nofun, fun _ => rfl⟩
  | true =>
    have mem := isFree.mp prev
    let pool' : IdPool :=
      { pool with
        blocks := pool.blocks.set (id / pool.blockSize) b'
        usedCount := pool.usedCount + 1 }
    have change : Replaces pool pool' (id / pool.blockSize) b b' :=
      ⟨found, valid', size, rfl, ⟨rfl, rfl, rfl⟩, rfl⟩
    have some : 0 < b.freeCount := by
      rw [blockValid.1.counted]
      exact Finset.card_pos.mpr ⟨_, mem⟩
    have taken : Changes pool pool' id false :=
      sound.changes change (fun p => by rw [free]; split <;> simp_all) rfl nofun
        (fun j inList _ => inList) (fun _ => sound.listed _ _ found some) sound.inBlocks
    exact ⟨pool'.dropExhausted, by simp [mem, pool'],
      fun _ => ⟨⟨taken.sound.dropExhausted, ⟨rfl, rfl, rfl⟩, rfl, taken.blockFree⟩, rfl⟩, nofun⟩

end Sound

namespace Valid

variable {pool pool' : IdPool} {id : Nat} {b : IdPoolBlock}

variable (valid : Valid pool)
include valid

/-- An id that nobody has is taken out of its block. -/
theorem takeFree (h : Sound.Changes pool pool' id false)
    (used : pool'.usedCount = pool.usedCount + 1) (low : 1 ≤ id) (high : id ≤ pool.maxId)
    (isFree : pool.blockFree id = true) : Takes pool pool' id := by
  have uncached : id ∉ pool.cache := fun cached => by
    rw [(valid.cached _ cached).2.2] at isFree
    cases isFree
  refine valid.takes h.sound h.same ?_ low high (fun held => ?_) ?_ used
  · rw [h.blockFree 0 (zero_le _), valid.reserved, ite_self]
  · rw [(mem_held.mp held).2.2] at isFree
    cases isFree
  · ext other
    rw [h.mem_held]
    split <;> simp_all

theorem acquireFront {block : Nat} {rest : List Nat} (front : pool.freeList = block :: rest)
    (found : pool.blocks[block]? = some b) (some : 0 < b.freeCount) :
    ∃ pool' id, pool.acquireFront = Option.some (pool', id) ∧ Takes pool pool' id := by
  obtain ⟨b', p, acquired, mem, valid', free, size⟩ :=
    (valid.toSound.valid block b found).1.acquire some
  obtain ⟨low, high, quotient, remainder, isFree⟩ := valid.fresh_of_place found mem
  let pool' : IdPool :=
    { pool with
      blocks := pool.blocks.set block b'
      freeList := if b'.freeCount = 0 then pool.freeList.tail else pool.freeList
      usedCount := pool.usedCount + 1 }
  have change : Sound.Replaces pool pool' ((p + block * pool.blockSize) / pool.blockSize) b b' := by
    rw [quotient]
    exact ⟨found, valid', size, rfl, ⟨rfl, rfl, rfl⟩, rfl⟩
  refine ⟨pool', p + block * pool.blockSize, ?_,
    valid.takeFree (valid.toSound.changes change ?_ rfl nofun ?_ ?_ ?_) rfl low high isFree⟩
  · simp only [IdPool.acquireFront, front, head?_cons, found, acquired,
      Option.bind_eq_bind, Option.bind_some]
    rw [← front]
  · intro q
    rw [free]
    split <;> simp_all
  · intro j inList ne
    simp only [pool'] at inList ⊢
    split <;> simp_all
  · intro left
    rw [quotient]
    simp [pool', front, Nat.pos_iff_ne_zero.mp left]
  · intro j inList
    apply valid.inBlocks
    simp only [pool'] at inList
    split at inList
    · exact mem_of_mem_tail inList
    · exact inList

omit valid in
theorem SameParameters.trans {first second third : IdPool}
    (prev : SameParameters first second) (after : SameParameters second third) :
    SameParameters first third :=
  ⟨after.maxId.trans prev.maxId, after.maxCacheSize.trans prev.maxCacheSize,
    after.blockSize.trans prev.blockSize⟩

omit valid in
/-- A preparation that takes nothing. -/
theorem takes_of_prepared {middle : IdPool} (eq : SameParameters pool middle)
    (held : middle.held = pool.held) (h : Takes middle pool' id) : Takes pool pool' id :=
  ⟨h.valid, SameParameters.trans eq h.same, h.low, eq.maxId ▸ h.high, held ▸ h.fresh, held ▸ h.held⟩

/-- Taking an id out of the cache. -/
theorem takeCached (mem : id ∈ pool.cache) : Takes pool
      { pool with cache := pool.cache.erase id, usedCount := pool.usedCount + 1 } id := by
  obtain ⟨low, high, taken⟩ := valid.cached id mem
  have erased : ∀ other, other ∈ pool.cache.erase id ↔ other ≠ id ∧ other ∈ pool.cache :=
    fun other => valid.distinct.mem_erase_iff
  refine valid.takes ?_ ⟨rfl, rfl, rfl⟩ valid.reserved low high
    (fun held => (mem_held.mp held).2.1 mem) ?_ rfl
  · exact { valid.toSound with
      distinct := valid.distinct.erase id
      cached := fun other cached => valid.cached other ((erased other).mp cached).2 }
  · ext other
    rw [Finset.mem_insert, mem_held, mem_held]
    simp only [erased]
    rcases eq_or_ne other id with rfl | ne
    · exact ⟨fun _ => .inl rfl, fun _ => ⟨⟨low, high⟩, by simp, taken⟩⟩
    · simp only [ne, false_or, ne_eq, not_false_eq_true, true_and]
      rfl

/-- When the list is empty and no block can be added, everything is held. -/
theorem held_of_exhausted (noCache : pool.cache = [])
    (noFree : pool.freeList = []) (full : pool.maxBlockCount ≤ pool.blocks.length) :
    pool.held = Finset.Icc 1 pool.maxId := by
  ext id
  rw [mem_held, Finset.mem_Icc, noCache]
  refine ⟨fun held => held.1, fun range => ⟨range, not_mem_nil, ?_⟩⟩
  have lt : id / pool.blockSize < pool.blocks.length :=
    lt_of_lt_of_le (valid.toSound.div_lt_blockCount range.2) full
  have found := getElem?_eq_getElem lt
  have unlisted : ¬ 0 < (pool.blocks[id / pool.blockSize]).freeCount := by
    intro some
    have := valid.listed _ _ found some
    rw [noFree] at this
    cases this
  rw [← Bool.not_eq_true, valid.toSound.blockFree_iff range.2 found]
  have count := (valid.toSound.valid _ _ found).1.counted
  have empty := Finset.card_eq_zero.mp (count.symm.trans (by omega))
  simp [empty]

/-- `acquire` takes an id that nobody holds, and fails only when all are held. -/
theorem acquire (choice : Nat) : ∃ pool' id, pool.acquire choice = some (pool', id) ∧
      (Takes pool pool' id ∨ id = 0 ∧ pool.held = Finset.Icc 1 pool.maxId ∧ Valid pool' ∧
          SameParameters pool pool' ∧ pool'.held = pool.held) := by
  unfold IdPool.acquire
  cases cached : pool.cache[choice % pool.cache.length]? with
  | some id => exact ⟨_, id, rfl, .inl (valid.takeCached (mem_of_getElem? cached))⟩
  | none =>
    have noCache : pool.cache = [] := by
      by_contra some
      have pos := length_pos_of_ne_nil some
      have := getElem?_eq_none_iff.mp cached
      have := mod_lt choice pos
      omega
    have dropped := valid.dropExhausted
    have eq : SameParameters pool pool.dropExhausted := ⟨rfl, rfl, rfl⟩
    have held : pool.dropExhausted.held = pool.held := rfl
    simp only
    cases list : pool.dropExhausted.freeList with
    | cons block rest =>
      obtain ⟨b, found, some⟩ := valid.toSound.front_of_dropExhausted list
      obtain ⟨pool', id, acquired, takes⟩ := dropped.acquireFront list found some
      exact ⟨pool', id, acquired, .inl (takes_of_prepared eq held takes)⟩
    | nil =>
      by_cases lt : pool.blocks.length < pool.maxBlockCount
      · -- A fresh block is the only one in the list.
        have added : pool.dropExhausted.addFreeBlocks 1 =
            (pool.dropExhausted.addBlock, true) := by
          rw [IdPool.addFreeBlocks, if_neg]
          · rfl
          · rw [dropExhausted_blocks, dropExhausted_maxBlockCount]
            omega
        have extended := dropped.toSound.addBlocks 1 lt
        obtain ⟨valid₁, held₁⟩ := dropped.of_extended extended.1
        have front : pool.dropExhausted.addBlock.freeList = [pool.blocks.length] := by
          rw [IdPool.addBlock, list]
          rfl
        have found : pool.dropExhausted.addBlock.blocks[pool.blocks.length]? =
            some (IdPoolBlock.new (pool.dropExhausted.sizeOfBlock pool.blocks.length)) := by
          simp [IdPool.addBlock]
        obtain ⟨pool', id, acquired, takes⟩ := valid₁.acquireFront front found
          (dropped.toSound.sizeOfBlock_pos _)
        rw [added]
        exact ⟨pool', id, acquired, .inl (takes_of_prepared
          (SameParameters.trans eq extended.1.same) (held₁.trans held) takes)⟩
      · have refused : pool.dropExhausted.addFreeBlocks 1 =
            (pool.dropExhausted, false) := by
          rw [IdPool.addFreeBlocks, if_pos]
          rw [dropExhausted_blocks, dropExhausted_maxBlockCount]
          omega
        rw [refused]
        refine ⟨_, 0, rfl, .inr ⟨rfl, ?_, dropped, eq, held⟩⟩
        exact dropped.held_of_exhausted noCache list (not_lt.mp lt)

/-- The answer to a release: a held id is given back, any other one refused. -/
def Releases (pool : IdPool) (id : Nat) (answer : Option (IdPool × Bool)) : Prop :=
  ∃ pool', answer = some (pool', decide (id ∈ pool.held)) ∧
    (id ∈ pool.held → Gives pool pool' id) ∧ (id ∉ pool.held → pool' = pool)

/-- Releasing into the cache. -/
theorem releaseToCache (held : id ∈ pool.held) : Gives pool
      { pool with cache := id :: pool.cache, usedCount := pool.usedCount - 1 } id := by
  obtain ⟨⟨low, high⟩, uncached, taken⟩ := mem_held.mp held
  refine valid.gives ?_ ⟨rfl, rfl, rfl⟩ valid.reserved held ?_ rfl
  · exact { valid.toSound with
      distinct := nodup_cons.mpr ⟨uncached, valid.distinct⟩
      cached := fun other mem => by
        rcases List.mem_cons.mp mem with rfl | mem
        · exact ⟨low, high, taken⟩
        · exact valid.cached other mem }
  · ext other
    rw [Finset.mem_erase, mem_held, mem_held]
    simp only [List.mem_cons, not_or]
    exact ⟨fun ⟨range, ⟨ne, uncached⟩, taken⟩ => ⟨ne, range, uncached, taken⟩,
      fun ⟨ne, range, uncached, taken⟩ => ⟨range, ⟨ne, uncached⟩, taken⟩⟩

variable (low : 1 ≤ id) (high : id ≤ pool.maxId)
include low high

/-- Releasing into a block. -/
theorem releaseToBlock (uncached : id ∉ pool.cache)
    (found : pool.blocks[id / pool.blockSize]? = some b) :
    Releases pool id (pool.releaseToBlock id b) := by
  have blockValid := valid.toSound.valid _ _ found
  have place : id % pool.blockSize < b.maxSize := by
    rw [blockValid.2]
    exact valid.toSound.mod_lt_sizeOfBlock high
  have isHeld : id ∈ pool.held ↔ id % pool.blockSize ∉ b.free := by
    rw [mem_held, ← valid.toSound.blockFree_iff high found]
    simp [low, high, uncached]
  obtain ⟨b', released, valid', free, size, eq⟩ := blockValid.1.release place
  rw [Releases, IdPool.releaseToBlock, released]
  by_cases taken : id % pool.blockSize ∈ b.free
  · have notHeld : id ∉ pool.held := fun held => isHeld.mp held taken
    simp [taken, notHeld, eq taken, Sound.set_found found]
  have held : id ∈ pool.held := isHeld.mpr taken
  let pool' : IdPool :=
    { pool with
      blocks := pool.blocks.set (id / pool.blockSize) b'
      freeList := if b'.freeCount = 1 then id / pool.blockSize :: pool.freeList
        else pool.freeList
      usedCount := pool.usedCount - 1 }
  have change : Sound.Replaces pool pool' (id / pool.blockSize) b b' :=
    ⟨found, valid', size, rfl, ⟨rfl, rfl, rfl⟩, rfl⟩
  have count : b'.freeCount = b.freeCount + 1 := by
    rw [valid'.counted, free, Finset.card_insert_of_notMem taken, blockValid.1.counted]
  have changes : Sound.Changes pool pool' id true := by
    refine valid.toSound.changes change (fun p => ?_) rfl (fun _ => uncached) ?_ ?_ ?_
    · rw [free]
      split <;> simp_all
    · intro j inList _
      simp only [pool']
      split
      · exact mem_cons_of_mem _ inList
      · exact inList
    · intro _
      simp only [pool']
      split
      · exact mem_cons_self
      · exact valid.listed _ _ found (by omega)
    · have inside := (List.getElem?_eq_some_iff.mp found).1
      simp only [pool']
      split
      · exact forall_mem_cons.mpr ⟨inside, valid.inBlocks⟩
      · exact valid.inBlocks
  refine ⟨pool', by simp [taken, held, pool'], fun _ => ?_, fun absent => absurd held absent⟩
  refine valid.gives changes.sound change.same ?_ held ?_ rfl
  · rw [changes.blockFree 0 (zero_le _), if_neg (by omega), valid.reserved]
  · ext other
    rw [changes.mem_held]
    split <;> simp_all

/-- `release` gives back a held id and refuses any other one, unless the cache is
full and has the id. -/
theorem release (single : pool.cache.length < pool.maxCacheSize ∨ id ∉ pool.cache) :
    Releases pool id (pool.release id) := by
  unfold IdPool.release
  rw [if_neg (by omega)]
  have refuse : id ∉ pool.held → Releases pool id (some (pool, false)) :=
    fun absent => ⟨pool, by simp [absent], fun held => absurd held absent, fun _ => rfl⟩
  cases found : pool.blocks[id / pool.blockSize]? with
  | none =>
    apply refuse
    intro held
    have taken := (mem_held.mp held).2.2
    simp [blockFree, found] at taken
  | some b =>
    simp only
    by_cases lt : pool.cache.length < pool.maxCacheSize
    · rw [if_pos lt]
      by_cases cached : id ∈ pool.cache
      · rw [if_pos cached]
        exact refuse fun held => (mem_held.mp held).2.1 cached
      rw [if_neg cached]
      have avail : b.checkIfAvailable (id % pool.blockSize) = pool.blockFree id := by
        rw [blockFree, found]
      rw [avail]
      cases isFree : pool.blockFree id with
      | true =>
        apply refuse
        intro held
        rw [(mem_held.mp held).2.2] at isFree
        cases isFree
      | false =>
        have held : id ∈ pool.held := mem_held.mpr ⟨⟨low, high⟩, cached, isFree⟩
        exact ⟨_, by simp [held], fun _ => valid.releaseToCache held,
          fun absent => absurd held absent⟩
    · rw [if_neg lt]
      exact valid.releaseToBlock low high (single.resolve_left lt) found

/-- Marking an id in a block that is there. -/
theorem markInBlock (uncached : id ∉ pool.cache) (lt : id / pool.blockSize < pool.blocks.length) :
    ∃ pool', pool.markInBlock id = some (pool', decide (id ∉ pool.held)) ∧
      (id ∉ pool.held → Takes pool pool' id) ∧ (id ∈ pool.held → pool' = pool) := by
  have isHeld : id ∈ pool.held ↔ pool.blockFree id = false := by
    simp [mem_held, low, high, uncached]
  obtain ⟨pool', marked, taken, eq⟩ := valid.toSound.markInBlock high lt
  refine ⟨pool', by simp [marked, isHeld], fun absent => ?_, fun held => eq (isHeld.mp held)⟩
  rw [isHeld, Bool.not_eq_false] at absent
  obtain ⟨changes, used⟩ := taken absent
  exact valid.takeFree changes used low high absent

omit valid low high in
theorem missingBlocks_eq {block : Nat} (missing : pool.blocks.length ≤ block)
    (reach : block + 1 - pool.blocks.length < 2 ^ 31) :
    pool.missingBlocks block = ((block + 1 - pool.blocks.length : Nat) : Int) := by
  unfold missingBlocks
  rw [Int.bmod_eq_of_le] <;> omega

/-- `markAsAcquired` takes a free id and refuses a held one, as long as the number of
missing blocks is an `int`. -/
theorem markAsAcquired (reach : id / pool.blockSize + 1 - pool.blocks.length < 2 ^ 31) :
    ∃ pool', pool.markAsAcquired id = some (pool', decide (id ∉ pool.held)) ∧
      (id ∉ pool.held → Takes pool pool' id) ∧ (id ∈ pool.held → pool' = pool) := by
  unfold IdPool.markAsAcquired
  by_cases cached : id ∈ pool.cache
  · have takes := valid.takeCached cached
    rw [if_pos cached]
    exact ⟨_, by simp [takes.fresh], fun _ => takes, fun held => absurd held takes.fresh⟩
  rw [if_neg cached]
  by_cases missing : pool.blocks.length ≤ id / pool.blockSize
  · -- Up to the block of the id, everything is new and free.
    have count := missingBlocks_eq missing reach
    have block := valid.toSound.div_lt_blockCount high
    obtain ⟨pool₁, added, extended, length⟩ := valid.toSound.addFreeBlocks
      (pool.missingBlocks (id / pool.blockSize)) (by omega) (by omega)
    obtain ⟨valid₁, held₁⟩ := valid.of_extended extended
    have eq := extended.same
    have lt : id / pool₁.blockSize < pool₁.blocks.length := by
      rw [eq.blockSize, length]
      omega
    obtain ⟨pool', marked, takes, -⟩ := valid₁.markInBlock low (eq.maxId ▸ high)
      (extended.cache ▸ cached) lt
    have notHeld : id ∉ pool.held := by
      intro held
      have taken := (mem_held.mp held).2.2
      simp [blockFree, getElem?_eq_none missing] at taken
    simp only [if_pos missing, added, marked, held₁]
    exact ⟨pool', rfl, fun fresh => takes_of_prepared eq held₁ (takes (held₁ ▸ fresh)),
      fun held => absurd held notHeld⟩
  · simp only [if_neg missing]
    exact valid.markInBlock low high cached (not_le.mp missing)

end Valid

/-!
The constructor.  The parameters are `size_t` values; a block must not be empty and
its words must fit in a `compact_vector`.
-/

/-- The parameters of a pool. -/
structure Parameters where
  maxSize : Nat
  blockSize : Nat
  cacheSize : Nat
  inWord : maxSize < 2 ^ 64
  positive : 0 < blockSize
  small : roundedBlockSize maxSize blockSize ≤ 64 * maxWords

namespace Parameters

variable (p : Parameters)

theorem roundedBlockSize_pos : 0 < roundedBlockSize p.maxSize p.blockSize := by
  have := p.positive
  simp only [roundedBlockSize]
  split <;> omega

theorem sound_bare : Sound (bare p.maxSize p.blockSize p.cacheSize) :=
  { positive := p.roundedBlockSize_pos
    small := p.small
    blockCount := rfl
    bounded := zero_le _
    valid := fun i b found => by simp [bare] at found
    listed := fun i b found => by simp [bare] at found
    inBlocks := fun i mem => by simp [bare] at mem
    distinct := nodup_nil
    cached := fun id mem => by simp [bare] at mem }

/-- A new pool is valid and nothing is held. -/
theorem valid_new : ∃ pool, new p.maxSize p.blockSize p.cacheSize = some pool ∧ Valid pool ∧
      pool.held = ∅ ∧ pool.maxId = p.maxSize ∧
      SameParameters (bare p.maxSize p.blockSize p.cacheSize) pool := by
  have pos := p.roundedBlockSize_pos
  have sound := p.sound_bare
  generalize start : bare p.maxSize p.blockSize p.cacheSize = pool₀ at sound
  have noBlocks : pool₀.blocks = [] := by rw [← start]; rfl
  have noCache : pool₀.cache = [] := by rw [← start]; rfl
  have added : pool₀.addFreeBlocks (pool₀.missingBlocks 0) = (pool₀.addBlock, true) := by
    have one : pool₀.missingBlocks 0 = 1 := by
      rw [Valid.missingBlocks_eq (by simp [noBlocks]) (by simp [noBlocks]), noBlocks]
      rfl
    rw [addFreeBlocks, one, if_neg]
    · rfl
    · rw [noBlocks, sound.blockCount]
      simp
  have sound₁ : Sound pool₀.addBlock := by
    apply sound.addBlock
    rw [noBlocks, sound.blockCount]
    simp
  have freeBefore : ∀ id, pool₀.addBlock.blockFree id = true := by
    intro id
    rw [sound.blockFree_addBlock, blockFree, noBlocks]
    rfl
  obtain ⟨pool₁, marked, taken, -⟩ := sound₁.markInBlock (zero_le pool₀.maxId)
    (show 0 / pool₀.blockSize < _ by simp [addBlock])
  obtain ⟨changes, -⟩ := taken (freeBefore 0)
  have grown : pool₀.markAsAcquired 0 = pool₀.addBlock.markInBlock 0 := by
    have missing : pool₀.blocks.length ≤ 0 / pool₀.blockSize := by simp [noBlocks]
    have added' : pool₀.addFreeBlocks (pool₀.missingBlocks (0 / pool₀.blockSize)) =
        (pool₀.addBlock, true) := by rw [Nat.zero_div, added]
    rw [markAsAcquired, if_neg (by simp [noCache]), if_pos missing, added']
    exact if_pos rfl
  have nothing : pool₁.held = ∅ := by
    ext id
    rw [changes.mem_held, mem_held]
    split <;> simp_all
  have maxId : pool₀.maxId = p.maxSize := by rw [← start]; rfl
  refine ⟨{ pool₁ with usedCount := 0 }, ?_, ⟨{ changes.sound with }, ?_, ?_, ?_⟩, nothing,
    changes.same.maxId.trans maxId, { changes.same with }⟩
  · rw [new, if_neg (by omega), start, grown, marked]
    rfl
  · exact (changes.same.maxId.trans maxId) ▸ p.inWord
  · exact changes.blockFree 0 (zero_le _)
  · have : ({ pool₁ with usedCount := 0 } : IdPool).held = ∅ := nothing
    rw [this]
    rfl

end Parameters

end IdPool

end LeilFS.Ids
