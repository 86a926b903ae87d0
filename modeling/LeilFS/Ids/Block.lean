/-
Module: LeilFS.Ids.Block
Purpose: A block of ids as a bit pool that drops its words when all of its ids are
  free or all are taken.
Trusted boundary: none
-/
import LeilFS.Lib.WordBits

namespace LeilFS.Ids

open Option Finset List WordBits

/-!
A set bit stands for a free id.  Without words the block is entirely free or
entirely taken, and the counter says which.  A function returns nothing where the
code stops: at a failed assertion, at the exception of `acquire` and at an access
behind the end of the words.

[SPEC id_pool.h:31-239]
-/

/-- The largest number of words that a `compact_vector` of words can have. -/
def maxWords : Nat := 2 ^ 20 - 1

/-- A block of ids, counted from zero. -/
structure IdPoolBlock where
  data : List (BitVec 64)
  maxSize : Nat
  freeCount : Nat
  nextPack : Nat
deriving Repr, DecidableEq

namespace IdPoolBlock

/-- A block with all ids free. -/
def new (size : Nat) : IdPoolBlock :=
  { data := [], maxSize := size, freeCount := size, nextPack := 0 }

/-- One halving of the search for the first set bit. -/
def ffsStep (found : Nat × BitVec 64) (bitTest : Nat) : Nat × BitVec 64 :=
  let mask := (1#64 <<< bitTest) - 1#64
  if found.2 &&& mask = 0#64 then (found.1 + bitTest, found.2 >>> bitTest) else found

/-- The first set bit of four, counted from one. -/
def ffsTable : List Int := [-60, 1, 2, 1, 3, 1, 2, 1, 4, 1, 2, 1, 3, 1, 2, 1]

/-- Find first set bit, counted from one; zero if there is none. -/
def ffs (r : BitVec 64) : Int :=
  let (bit, rest) := [32, 16, 8, 4].foldl ffsStep (0, r)
  bit + ffsTable.getD (rest &&& 0xF#64).toNat 0

/-- The number of words for a number of ids. -/
def packs (size : Nat) : Nat := (size + 64 - 1) / 64

/-- The words of a block of free ids. -/
def fullData (size : Nat) : List (BitVec 64) :=
  let words := List.replicate (packs size) (BitVec.allOnes 64)
  if 0 < size % 64 then
    words.set (packs size - 1) ((1#64 <<< (size % 64)) - 1#64)
  else words

/-- Allocate the words, all free or all taken. -/
def allocBlock (b : IdPoolBlock) (full : Bool) : Option IdPoolBlock :=
  if packs b.maxSize ≤ maxWords then
    if full then
      if b.freeCount = b.maxSize then
        some { b with data := fullData b.maxSize, nextPack := 0 }
      else none
    else
      if b.freeCount = 0 then
        some { b with data := List.replicate (packs b.maxSize) 0#64 }
      else none
  else none

/-- Whether the word at a place is not zero. -/
def packSet (data : List (BitVec 64)) (pack : Nat) : Bool :=
  match data[pack]? with
  | some word => decide (word ≠ 0#64)
  | none => false

/-- The block with its words, which are allocated when it has none. -/
def withWords (b : IdPoolBlock) (full : Bool) : Option IdPoolBlock :=
  if b.data.length = 0 then b.allocBlock full else some b

/-- Takes the first id that the search for a set bit meets.  `nextPack` remembers
where the search has ended. -/
def takeFirst (b : IdPoolBlock) : Option (IdPoolBlock × Nat) := do
  let pack ← ringSearch (packSet b.data) b.data.length b.nextPack b.data.length b.nextPack
  let word ← b.data[pack]?
  let p := ffs word - 1
  let bitMask := mask 64 p.toNat
  if 0 ≤ p ∧ word &&& bitMask ≠ 0#64 then
    let freeCount := b.freeCount - 1
    some ({ b with data := if freeCount = 0 then [] else b.data.set pack (word ^^^ bitMask),
                   freeCount := freeCount, nextPack := pack },
      pack * 64 + p.toNat)
  else none

/-- Clears the bit of an id; false if it was not set. -/
def clearBit (b : IdPoolBlock) (id : Nat) : Option (IdPoolBlock × Bool) := do
  let word ← b.data[id / 64]?
  if word &&& mask 64 id = 0#64 then some (b, false)
  else
    let freeCount := b.freeCount - 1
    let data := b.data.set (id / 64) (word ^^^ mask 64 id)
    some ({ b with data := if freeCount = 0 then [] else data,
                   freeCount := freeCount }, true)

/-- Sets the bit of an id; false if it was set. -/
def setBit (b : IdPoolBlock) (id : Nat) : Option (IdPoolBlock × Bool) := do
  let word ← b.data[id / 64]?
  if word &&& mask 64 id ≠ 0#64 then some (b, false)
  else
    let data := b.data.set (id / 64) (word ||| mask 64 id)
    let freeCount := b.freeCount + 1
    some ({ b with data := if freeCount = b.maxSize then [] else data,
                   freeCount := freeCount,
                   nextPack := if b.freeCount = 0 then id / 64 else b.nextPack }, true)

/-- Takes an id from the block. -/
def acquire (b : IdPoolBlock) : Option (IdPoolBlock × Nat) :=
  if b.freeCount = 0 then none else (b.withWords true).bind takeFirst

/-- Marks an id as taken; false if it was taken before. -/
def markAsAcquired (b : IdPoolBlock) (id : Nat) : Option (IdPoolBlock × Bool) :=
  if id < b.maxSize then
    if b.data.length = 0 ∧ b.freeCount = 0 then some (b, false)
    else (b.withWords true).bind fun b => b.clearBit id
  else none

/-- Returns an id to the block; false if it was free before. -/
def release (b : IdPoolBlock) (id : Nat) : Option (IdPoolBlock × Bool) :=
  if b.data.length = 0 ∧ 0 < b.freeCount then some (b, false)
  else (b.withWords false).bind fun b => b.setBit id

/-- Whether an id is free. -/
def checkIfAvailable (b : IdPoolBlock) (id : Nat) : Bool :=
  if b.data.length = 0 then decide (0 < b.freeCount) else bit b.data id

/-!
The search for the first set bit keeps that the rest it looks at is the word
without its lowest bits, and that one of the bits it still has to look at is set.
-/

/-- What is known after a halving. -/
structure FfsState (r : BitVec 64) (width : Nat) (found : Nat × BitVec 64) : Prop where
  rest : found.2.toNat = r.toNat / 2 ^ found.1
  set : found.2.toNat % 2 ^ width ≠ 0
  inside : found.1 + width ≤ 64

theorem FfsState.step {r : BitVec 64} {k : Nat} {found : Nat × BitVec 64}
    (state : FfsState r (k + k) found) (pos : 0 < k) : FfsState r k (ffsStep found k) := by
  have inside := state.inside
  have low : (found.2 &&& ((1#64 <<< k) - 1#64) = 0#64) ↔ found.2.toNat % 2 ^ k = 0 := by
    rw [← BitVec.toNat_inj, toNat_and_lowMask (by omega)]
    rfl
  have split := Nat.mod_mul (x := found.2.toNat) (a := 2 ^ k) (b := 2 ^ k)
  rw [← Nat.pow_add] at split
  unfold ffsStep
  by_cases zero : found.2.toNat % 2 ^ k = 0
  · rw [if_pos (low.mpr zero)]
    refine ⟨?_, ?_, by simp only; omega⟩
    · simp only [BitVec.toNat_ushiftRight, Nat.shiftRight_eq_div_pow, state.rest]
      rw [Nat.div_div_eq_div_mul, Nat.pow_add]
    · simp only [BitVec.toNat_ushiftRight, Nat.shiftRight_eq_div_pow]
      intro upper
      exact state.set (by rw [split, zero, upper, Nat.mul_zero])
  · rw [if_neg (fun low' => zero (low.mp low'))]
    exact ⟨state.rest, zero, by omega⟩

/-- The table has the first set bit of four. -/
theorem ffsTable_spec : ∀ n : Fin 16, n ≠ 0 →
    ∃ t : Fin 4, ffsTable.getD n.val 0 = t.val + 1 ∧ n.val.testBit t.val = true := by
  decide

/-- A word that is not zero has the bit that is found. -/
theorem ffs_spec {r : BitVec 64} (ne : r ≠ 0#64) :
    ∃ p : Nat, ffs r = (p : Int) + 1 ∧ p < 64 ∧ r.getLsbD p = true := by
  have initial : FfsState r 64 (0, r) := by
    refine ⟨by simp, ?_, le_rfl⟩
    simp only [Nat.mod_eq_of_lt r.isLt]
    exact fun zero => ne (BitVec.toNat_inj.mp (by simpa using zero))
  have state : FfsState r 4 ([32, 16, 8, 4].foldl ffsStep (0, r)) :=
    (((initial.step (k := 32) (by decide)).step (k := 16) (by decide)).step (k := 8)
      (by decide)).step (k := 4) (by decide)
  unfold ffs
  generalize [32, 16, 8, 4].foldl ffsStep (0, r) = found at state
  have nibble : (found.2 &&& 0xF#64).toNat = found.2.toNat % 16 := by
    have := toNat_and_lowMask (w := 64) (r := 4) (by decide) found.2
    simpa using this
  have notZero : (⟨found.2.toNat % 16, Nat.mod_lt _ (by decide)⟩ : Fin 16) ≠ 0 := by
    intro zero
    exact state.set (by simpa using congrArg Fin.val zero)
  obtain ⟨t, value, set⟩ := ffsTable_spec _ notZero
  have inside := state.inside
  refine ⟨found.1 + t.val, ?_, by omega, ?_⟩
  · simp only [nibble]
    rw [value]
    omega
  · have bitAt : (found.2.toNat % 2 ^ 4).testBit t.val = true := set
    rw [Nat.testBit_mod_two_pow, state.rest, Nat.testBit_div_two_pow] at bitAt
    rw [BitVec.getLsbD, Nat.add_comm]
    simpa using bitAt

/-!
What a block is for: a set of free ids.  The counter is the size of that set, and
the words, where there are any, are its bits.
-/

/-- The ids below a bound whose bits are set. -/
def stored (size : Nat) (data : List (BitVec 64)) : Finset Nat :=
  (Finset.range size).filter fun id => bit data id = true

/-- The free ids. -/
def free (b : IdPoolBlock) : Finset Nat :=
  (Finset.range b.maxSize).filter fun id => b.checkIfAvailable id = true

variable {size : Nat} {b : IdPoolBlock} {data : List (BitVec 64)}

theorem mem_free {id : Nat} : id ∈ b.free ↔ id < b.maxSize ∧ b.checkIfAvailable id = true := by
  simp [free]

theorem mem_stored {size id : Nat} : id ∈ stored size data ↔ id < size ∧ bit data id = true := by
  simp [stored]

theorem free_of_data (data : b.data.length ≠ 0) : b.free = stored b.maxSize b.data := by
  simp [free, stored, checkIfAvailable, data]

theorem free_of_no_data (dropped : b.data.length = 0) :
    b.free = if 0 < b.freeCount then Finset.range b.maxSize else ∅ := by
  by_cases some : 0 < b.freeCount <;> simp [free, checkIfAvailable, dropped]

/-- Words that may stand in a block of this size. -/
structure Words (size : Nat) (data : List (BitVec 64)) : Prop where
  length : data.length = packs size
  beyond : ∀ id, size ≤ id → bit data id = false

/-- The invariant of a block. -/
structure Valid (b : IdPoolBlock) : Prop where
  positive : 0 < b.maxSize
  small : packs b.maxSize ≤ maxWords
  counted : b.freeCount = b.free.card
  words : b.data.length ≠ 0 → Words b.maxSize b.data
  next : b.nextPack < packs b.maxSize

theorem packs_pos (pos : 0 < size) : 0 < packs size := by
  unfold packs
  omega

theorem div_lt_packs {size id : Nat} (lt : id < size) : id / 64 < packs size := by
  unfold packs
  omega

theorem length_fullData (size : Nat) : (fullData size).length = packs size := by
  unfold fullData
  split <;> simp

/-- The words of a block of free ids have the bits of exactly these ids. -/
theorem bit_fullData (size id : Nat) : bit (fullData size) id = decide (id < size) := by
  have ones : bit (replicate (packs size) (BitVec.allOnes 64)) id =
      decide (id / 64 < packs size) := by
    unfold bit
    rw [getElem?_replicate]
    by_cases lt : id / 64 < packs size
    · have low : id % 64 < 64 := Nat.mod_lt id (by decide)
      rw [if_pos lt]
      simp only [BitVec.getLsbD_allOnes, low, lt]
    · simp [lt]
  unfold fullData
  by_cases partly : 0 < size % 64
  · have last : packs size - 1 = size / 64 := by
      unfold packs
      omega
    have lt : size / 64 < (replicate (packs size) (BitVec.allOnes 64)).length := by
      rw [length_replicate]
      unfold packs
      omega
    rw [if_pos partly, last, bit_set lt, ones, getLsbD_lowMask (Nat.mod_lt size (by decide))]
    split
    · rw [decide_eq_decide]
      omega
    · rw [decide_eq_decide]
      omega
  · rw [if_neg partly, ones, decide_eq_decide]
    unfold packs
    omega

theorem Words.full (size : Nat) : Words size (fullData size) := by
  refine ⟨length_fullData size, fun id beyond => ?_⟩
  rw [bit_fullData]
  simpa using beyond

theorem bit_taken (size id : Nat) : bit (replicate (packs size) 0#64) id = false := by
  unfold bit
  rw [getElem?_replicate]
  by_cases lt : id / 64 < packs size
  · simp only [if_pos lt, BitVec.getLsbD_zero]
  · simp only [if_neg lt]

theorem Words.taken (size : Nat) : Words size (replicate (packs size) 0#64) :=
  ⟨by simp, fun id _ => bit_taken size id⟩

theorem Words.update (h : Words size data) {id : Nat} (lt : id < size) {word : BitVec 64}
    {value : Bool} (bits : bit (data.set (id / 64) word) = Function.update (bit data) id value) :
    Words size (data.set (id / 64) word) := by
  refine ⟨by simp [h.length], fun other beyond => ?_⟩
  rw [bits, Function.update_of_ne (by omega), h.beyond other beyond]

theorem Words.getElem? (h : Words size data)
    {id : Nat} (lt : id < size) : ∃ word, data[id / 64]? = some word := by
  have place : id / 64 < data.length := by
    rw [h.length]
    exact div_lt_packs lt
  exact ⟨_, getElem?_eq_getElem place⟩

theorem valid_new (pos : 0 < size) (le : packs size ≤ maxWords) : Valid (new size) := by
  refine ⟨pos, le, ?_, fun data => absurd rfl data, packs_pos pos⟩
  rw [free_of_no_data rfl]
  simp [new, pos]

namespace Valid

variable {b : IdPoolBlock}

/-- Without words, a block with a free id is entirely free. -/
theorem count_of_no_data (valid : Valid b) (dropped : b.data.length = 0)
    (some : 0 < b.freeCount) : b.freeCount = b.maxSize := by
  rw [valid.counted, free_of_no_data dropped, if_pos some, card_range]

/-- Allocating the words of a block, free or taken, changes nothing that is
visible. -/
theorem withWords (valid : Valid b) (full : Bool)
    (state : b.data.length = 0 → full = decide (0 < b.freeCount)) :
    ∃ b', b.withWords full = some b' ∧ Valid b' ∧ b'.data.length ≠ 0 ∧
      b'.free = b.free ∧ b'.maxSize = b.maxSize ∧ b'.freeCount = b.freeCount ∧
      (b.data.length ≠ 0 → b' = b) := by
  unfold IdPoolBlock.withWords
  by_cases dropped : b.data.length = 0
  swap
  · rw [if_neg dropped]
    exact ⟨b, rfl, valid, dropped, rfl, rfl, rfl, fun _ => rfl⟩
  have length := packs_pos valid.positive
  rw [if_pos dropped, state dropped]
  obtain ⟨data, nextPack, alloc, words, eq, next⟩ : ∃ data nextPack,
      b.allocBlock (decide (0 < b.freeCount)) = some { b with data := data, nextPack := nextPack } ∧
      Words b.maxSize data ∧ stored b.maxSize data = b.free ∧ nextPack < packs b.maxSize := by
    rw [free_of_no_data dropped]
    rcases Nat.eq_zero_or_pos b.freeCount with none | free
    · refine ⟨_, b.nextPack, ?_, Words.taken _, ?_, valid.next⟩
      · simp [IdPoolBlock.allocBlock, valid.small, none]
      · ext id
        simp [mem_stored, bit_taken, none]
    refine ⟨_, 0, ?_, Words.full _, ?_, length⟩
    · simp [IdPoolBlock.allocBlock, valid.small, valid.count_of_no_data dropped free,
        valid.positive]
    · ext id
      simp [mem_stored, bit_fullData, free]
  have allocated : data.length ≠ 0 := by
    rw [words.length]
    omega
  have free : ({ b with data := data, nextPack := nextPack } : IdPoolBlock).free = b.free := by
    rw [free_of_data allocated, eq]
  exact ⟨_, alloc, ⟨valid.positive, valid.small, free ▸ valid.counted, fun _ => words, next⟩,
    allocated, free, rfl, rfl, fun kept => absurd dropped kept⟩

variable {id : Nat} {word : BitVec 64}

/-- A block with other words, which are dropped when all ids are free or none is. -/
theorem rewritten (valid : Valid b) {data : List (BitVec 64)} (h : Words b.maxSize data)
    {count nextPack : Nat} (next : nextPack < packs b.maxSize)
    (counted : count = (stored b.maxSize data).card) {drop : Prop} [Decidable drop]
    (uniform : drop → stored b.maxSize data = if 0 < count then Finset.range b.maxSize else ∅) :
    let b' : IdPoolBlock :=
      { b with data := if drop then [] else data, freeCount := count, nextPack := nextPack }
    Valid b' ∧ b'.free = stored b.maxSize data := by
  intro b'
  have result : b'.free = stored b.maxSize data := by
    by_cases drops : drop
    · rw [free_of_no_data (by simp [b', drops]), uniform drops]
    · have kept : b'.data = data := if_neg drops
      rw [free_of_data (by rw [kept, h.length]; omega), kept]
  refine ⟨⟨valid.positive, valid.small, by rw [result, ← counted], fun kept => ?_, next⟩, result⟩
  have keeps : ¬drop := fun drops => kept (by simp [b', drops])
  rw [show b'.data = data from if_neg keeps]
  exact h

/-- A block in which the bit of one free id has been cleared. -/
theorem take (valid : Valid b) (allocated : b.data.length ≠ 0) (mem : id ∈ b.free)
    (found : b.data[id / 64]? = some word) {nextPack : Nat} (next : nextPack < packs b.maxSize) :
    let b' : IdPoolBlock :=
      { b with
        data := if b.freeCount - 1 = 0 then []
          else b.data.set (id / 64) (word ^^^ mask 64 id)
        freeCount := b.freeCount - 1
        nextPack := nextPack }
    Valid b' ∧ b'.free = b.free.erase id := by
  have set : bit b.data id = true := by
    rw [free_of_data allocated] at mem
    exact (mem_stored.mp mem).2
  have bits := bit_set_xor_mask (by decide) found
  have erased : stored b.maxSize (b.data.set (id / 64) (word ^^^ mask 64 id)) =
      b.free.erase id := by
    ext other
    rw [free_of_data allocated, mem_erase, mem_stored, mem_stored, bits]
    rcases eq_or_ne other id with rfl | ne
    · simp [set]
    · simp [ne]
  have count : b.freeCount - 1 = (b.free.erase id).card := by
    rw [card_erase_of_mem mem, valid.counted]
  rw [← erased] at count ⊢
  refine valid.rewritten ((valid.words allocated).update (mem_free.mp mem).1 bits) next count
    fun last => ?_
  rw [if_neg (by omega)]
  exact card_eq_zero.mp (count ▸ last)

/-- A block in which the bit of one taken id has been set. -/
theorem give (valid : Valid b) (allocated : b.data.length ≠ 0)
    (lt : id < b.maxSize) (taken : id ∉ b.free)
    (found : b.data[id / 64]? = some word) {nextPack : Nat} (next : nextPack < packs b.maxSize) :
    let b' : IdPoolBlock :=
      { b with
        data := if b.freeCount + 1 = b.maxSize then []
          else b.data.set (id / 64) (word ||| mask 64 id)
        freeCount := b.freeCount + 1
        nextPack := nextPack }
    Valid b' ∧ b'.free = insert id b.free := by
  have bits := bit_set_or_mask (by decide) found
  have inserted : stored b.maxSize (b.data.set (id / 64) (word ||| mask 64 id)) =
      insert id b.free := by
    ext other
    rw [free_of_data allocated, mem_insert, mem_stored, mem_stored, bits]
    rcases eq_or_ne other id with rfl | ne
    · simp [lt]
    · simp [ne]
  have count : b.freeCount + 1 = (insert id b.free).card := by
    rw [card_insert_of_notMem taken, valid.counted]
  rw [← inserted] at count ⊢
  refine valid.rewritten ((valid.words allocated).update lt bits) next count fun last => ?_
  rw [if_pos (by omega)]
  exact eq_of_subset_of_card_le (filter_subset _ _) (by rw [← count, card_range, last])

/-- Testing a bit asks whether the id is free. -/
theorem test_iff (allocated : b.data.length ≠ 0) (lt : id < b.maxSize)
    (found : b.data[id / 64]? = some word) :
    word &&& mask 64 id ≠ 0#64 ↔ id ∈ b.free := by
  rw [and_mask_ne_zero_iff (by decide), ← bit_of_getElem? found, free_of_data allocated, mem_stored]
  simp [lt]

section

variable (valid : Valid b)
include valid

theorem clearBit (allocated : b.data.length ≠ 0) (lt : id < b.maxSize) :
    ∃ b', b.clearBit id = some (b', decide (id ∈ b.free)) ∧ Valid b' ∧
      b'.free = b.free.erase id ∧ b'.maxSize = b.maxSize ∧ (id ∉ b.free → b' = b) := by
  obtain ⟨word, found⟩ := (valid.words allocated).getElem? lt
  have test := test_iff allocated lt found
  simp only [IdPoolBlock.clearBit, found, bind_eq_bind, bind_some]
  by_cases mem : id ∈ b.free
  · rw [if_neg (test.mpr mem)]
    have taken := valid.take allocated mem found valid.next
    exact ⟨_, by simp [mem], taken.1, taken.2, rfl, fun absent => absurd mem absent⟩
  · rw [if_pos (not_not.mp fun set => mem (test.mp set))]
    exact ⟨b, by simp [mem], valid, (erase_eq_of_notMem mem).symm, rfl, fun _ => rfl⟩

theorem setBit (allocated : b.data.length ≠ 0) (lt : id < b.maxSize) :
    ∃ b', b.setBit id = some (b', decide (id ∉ b.free)) ∧ Valid b' ∧
      b'.free = insert id b.free ∧ b'.maxSize = b.maxSize ∧ (id ∈ b.free → b' = b) := by
  obtain ⟨word, found⟩ := (valid.words allocated).getElem? lt
  have test := test_iff allocated lt found
  simp only [IdPoolBlock.setBit, found, bind_eq_bind, bind_some]
  by_cases mem : id ∈ b.free
  · rw [if_pos (test.mpr mem)]
    exact ⟨b, by simp [mem], valid, (Finset.insert_eq_of_mem mem).symm, rfl, fun _ => rfl⟩
  rw [if_neg fun set => mem (test.mp set)]
  have next : (if b.freeCount = 0 then id / 64 else b.nextPack) < packs b.maxSize := by
    split
    · exact div_lt_packs lt
    · exact valid.next
  have given := valid.give allocated lt mem found next
  exact ⟨_, by simp [mem], given.1, given.2, rfl, fun free => absurd free mem⟩

/-- The search of `takeFirst` ends at a word with a free id. -/
theorem exists_pack (allocated : b.data.length ≠ 0) (some : 0 < b.freeCount) :
    ∃ pack word, ringSearch (packSet b.data) b.data.length b.nextPack b.data.length
        b.nextPack = Option.some pack ∧ pack < packs b.maxSize ∧
      b.data[pack]? = Option.some word ∧ word ≠ 0#64 := by
  obtain ⟨id, mem⟩ := card_pos.mp (valid.counted ▸ some)
  rw [free_of_data allocated] at mem
  obtain ⟨word, found, ne⟩ := exists_word_of_bit (mem_stored.mp mem).2
  have inside := (List.getElem?_eq_some_iff.mp found).1
  have start : b.nextPack < b.data.length := (valid.words allocated).length ▸ valid.next
  obtain ⟨pack, search, below, set⟩ := ringSearch_found start inside
    (show packSet b.data (id / 64) = true by simp [packSet, found, ne])
  unfold packSet at set
  split at set
  next word here =>
    exact ⟨pack, word, search, (valid.words allocated).length ▸ below, here,
      by simpa using set⟩
  · cases set

theorem takeFirst (allocated : b.data.length ≠ 0) (some : 0 < b.freeCount) :
    ∃ b' id, b.takeFirst = Option.some (b', id) ∧ id ∈ b.free ∧ Valid b' ∧
      b'.free = b.free.erase id ∧ b'.maxSize = b.maxSize := by
  obtain ⟨pack, word, search, below, found, ne⟩ := valid.exists_pack allocated some
  obtain ⟨p, first, low, set⟩ := ffs_spec ne
  have place : (pack * 64 + p) / 64 = pack := by omega
  have position : (pack * 64 + p) % 64 = p := by omega
  have sameMask : mask 64 p = mask 64 (pack * 64 + p) := by
    rw [mask, mask, position, Nat.mod_eq_of_lt low]
  have bitAt : bit b.data (pack * 64 + p) = true := by
    rw [bit_of_getElem? (place.symm ▸ found), position]
    exact set
  have mem : pack * 64 + p ∈ b.free := by
    rw [free_of_data allocated, mem_stored]
    refine ⟨?_, bitAt⟩
    by_contra beyond
    rw [(valid.words allocated).beyond _ (by omega)] at bitAt
    cases bitAt
  have taken := valid.take allocated mem (place.symm ▸ found) below
  rw [place, ← sameMask] at taken
  refine ⟨_, pack * 64 + p, ?_, mem, taken.1, taken.2, rfl⟩
  have wanted : word &&& mask 64 p ≠ 0#64 := by
    rw [and_mask_ne_zero_iff (by decide), Nat.mod_eq_of_lt low]
    exact set
  have lowered : ((p : Int) + 1 - 1) = p := by omega
  simp only [IdPoolBlock.takeFirst, search, found, first, lowered, Int.toNat_natCast,
    bind_eq_bind, bind_some]
  rw [if_pos ⟨by omega, wanted⟩]

/-!
What the operations do to the free ids.  None of them stops.
-/

/-- `acquire` takes a free id, when there is one. -/
theorem acquire (some : 0 < b.freeCount) :
    ∃ b' id, b.acquire = Option.some (b', id) ∧ id ∈ b.free ∧ Valid b' ∧
      b'.free = b.free.erase id ∧ b'.maxSize = b.maxSize := by
  obtain ⟨b₁, alloc, valid₁, allocated, sameFree, sameSize, sameCount, -⟩ :=
    valid.withWords true fun _ => by simp [some]
  obtain ⟨b', id, taken, mem, valid', free, size⟩ := valid₁.takeFirst allocated (sameCount ▸ some)
  refine ⟨b', id, ?_, sameFree ▸ mem, valid', sameFree ▸ free, size.trans sameSize⟩
  rw [IdPoolBlock.acquire, if_neg (by omega), alloc, bind_some, taken]

/-- `markAsAcquired` takes the id, when it is free, and says so. -/
theorem markAsAcquired (lt : id < b.maxSize) :
    ∃ b', b.markAsAcquired id = some (b', decide (id ∈ b.free)) ∧ Valid b' ∧
      b'.free = b.free.erase id ∧ b'.maxSize = b.maxSize ∧ (id ∉ b.free → b' = b) := by
  rw [IdPoolBlock.markAsAcquired, if_pos lt]
  by_cases exhausted : b.data.length = 0 ∧ b.freeCount = 0
  · have empty : b.free = ∅ := by
      rw [free_of_no_data exhausted.1, if_neg (by omega)]
    rw [if_pos exhausted]
    exact ⟨b, by simp [empty], valid, by simp [empty], rfl, fun _ => rfl⟩
  rw [if_neg exhausted]
  obtain ⟨b₁, alloc, valid₁, allocated, sameFree, sameSize, -, kept⟩ :=
    valid.withWords true fun dropped => by
      have : 0 < b.freeCount := by omega
      simp [this]
  obtain ⟨b', cleared, valid', free, size, eq⟩ := valid₁.clearBit allocated (sameSize ▸ lt)
  rw [alloc, bind_some, cleared]
  refine ⟨b', by rw [sameFree], valid', sameFree ▸ free, size.trans sameSize, fun taken => ?_⟩
  rw [eq (sameFree ▸ taken)]
  apply kept
  -- Without words the id would have been free.
  intro dropped
  rw [free_of_no_data dropped, if_pos (by omega), Finset.mem_range] at taken
  exact taken lt

/-- `release` frees the id, when it is taken, and says so. -/
theorem release (lt : id < b.maxSize) :
    ∃ b', b.release id = some (b', decide (id ∉ b.free)) ∧ Valid b' ∧
      b'.free = insert id b.free ∧ b'.maxSize = b.maxSize ∧ (id ∈ b.free → b' = b) := by
  rw [IdPoolBlock.release]
  by_cases whole : b.data.length = 0 ∧ 0 < b.freeCount
  · have mem : id ∈ b.free := by
      rw [free_of_no_data whole.1, if_pos whole.2]
      exact Finset.mem_range.mpr lt
    rw [if_pos whole]
    exact ⟨b, by simp [mem], valid, (Finset.insert_eq_of_mem mem).symm, rfl, fun _ => rfl⟩
  rw [if_neg whole]
  obtain ⟨b₁, alloc, valid₁, allocated, sameFree, sameSize, -, kept⟩ :=
    valid.withWords false fun dropped => by
      have : ¬ 0 < b.freeCount := fun some => whole ⟨dropped, some⟩
      simp [this]
  obtain ⟨b', given, valid', free, size, eq⟩ := valid₁.setBit allocated (sameSize ▸ lt)
  rw [alloc, bind_some, given]
  refine ⟨b', by rw [sameFree], valid', sameFree ▸ free, size.trans sameSize, fun mem => ?_⟩
  rw [eq (sameFree ▸ mem)]
  apply kept
  -- Without words nothing would have been free.
  intro dropped
  rw [free_of_no_data dropped, if_neg fun some => whole ⟨dropped, some⟩] at mem
  simp at mem

end

end Valid

end IdPoolBlock

end LeilFS.Ids
