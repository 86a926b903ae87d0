/-
Module: LeilFS.Reading.ReadCache
Purpose: The cache of data that a client has read, and the removal of what it holds of a chunk
  that is being written.
Trusted boundary: none
-/
import LeilFS.Lib.SortedSeq

namespace LeilFS.Reading

open List

open SortedSeq (partitionPoint)

/-- [SPEC readdata_cache.h:72-108] The size is that of the buffer. -/
structure ReadCache.Entry where
  offset : UInt64
  size : ℕ
  done : Bool
  refcount : ℕ
  isPendingNotify : Bool
deriving Repr, DecidableEq

/-- [SPEC readdata_cache.h:66-240] The entries are a set by their offsets; those that are
removed while someone holds them wait in a second list. -/
structure ReadCache where
  entries : List ReadCache.Entry
  reservedEntries : List ReadCache.Entry
  sorted : entries.Pairwise (·.offset < ·.offset)

namespace ReadCache

/-! ## Clearing a chunk -/

/-- [SPEC readdata_cache.cc:55] -/
def Entry.endOffset (e : Entry) : UInt64 := e.offset + UInt64.ofNat e.size

/-- What is removed is kept for those who hold it [SPEC readdata_cache.cc:341-355]. -/
def Entry.held (e : Entry) : Bool := 0 < e.refcount || e.isPendingNotify

/-- The loop over the entries from some position on [SPEC readdata_cache.cc:301-311]: those
that stay, and those that are removed. -/
def clearFrom (chunkStart chunkEnd : UInt64) : List Entry → List Entry × List Entry
  | [] => ([], [])
  | e :: es =>
      -- it ends before the chunk
      if e.endOffset < chunkStart then
        let (kept, erased) := clearFrom chunkStart chunkEnd es
        (e :: kept, erased)
      -- it starts after the chunk
      else if chunkEnd ≤ e.offset then (e :: es, [])
      else
        let (kept, erased) := clearFrom chunkStart chunkEnd es
        (kept, e :: erased)

/-- The bounds are products of numbers of 32 bits [SPEC readdata_cache.cc:290-294]. -/
def leastOverlappingOffset (chunkIndex : UInt32) : UInt64 :=
  if 0 < chunkIndex then ((chunkIndex - 1) * 67108864).toUInt64 else 0

def chunkStart (chunkIndex : UInt32) : UInt64 := (chunkIndex * 67108864).toUInt64

def chunkEnd (chunkIndex : UInt32) : UInt64 := chunkStart chunkIndex + 67108864

/-- Where the loop begins [SPEC readdata_cache.cc:296-300]. -/
def firstOverlapping (entries : List Entry) (chunkIndex : UInt32) : ℕ :=
  if 0 < leastOverlappingOffset chunkIndex then
    partitionPoint (fun e => e.offset ≤ leastOverlappingOffset chunkIndex - 1) entries
  else 0

theorem clearFrom_sublist (chunkStart chunkEnd : UInt64) (es : List Entry) :
    (clearFrom chunkStart chunkEnd es).1.Sublist es := by
  induction es with
  | nil => exact List.Sublist.refl _
  | cons e es ih =>
    unfold clearFrom
    split
    · exact ih.cons_cons e
    · split
      · exact List.Sublist.refl _
      · exact ih.cons e

/-- [SPEC readdata_cache.cc:289-312] -/
def selectiveClear (cache : ReadCache) (chunkIndex : UInt32) : ReadCache :=
  let first := firstOverlapping cache.entries chunkIndex
  let cleared := clearFrom (chunkStart chunkIndex) (chunkEnd chunkIndex) (cache.entries.drop first)
  { entries := cache.entries.take first ++ cleared.1
    reservedEntries := cache.reservedEntries ++ cleared.2.filter Entry.held
    sorted := cache.sorted.sublist <| by
      refine (List.Sublist.append_left (clearFrom_sublist _ _ _) _).trans ?_
      rw [List.take_append_drop] }

/-! ## What is removed -/

/-- The entries that the loop removes. -/
def Removes (chunkIndex : UInt32) (e : Entry) : Prop :=
  leastOverlappingOffset chunkIndex ≤ e.offset ∧ chunkStart chunkIndex ≤ e.endOffset ∧
    e.offset < chunkEnd chunkIndex

theorem mem_clearFrom {start stop : UInt64} {es : List Entry}
    (sorted : es.Pairwise (·.offset < ·.offset)) {e : Entry} :
    e ∈ (clearFrom start stop es).1 ↔ e ∈ es ∧ ¬(start ≤ e.endOffset ∧ e.offset < stop) := by
  induction es with
  | nil => simp [clearFrom]
  | cons head es ih =>
    obtain ⟨above, sorted⟩ := pairwise_cons.mp sorted
    have ih := ih sorted
    unfold clearFrom
    by_cases prev : head.endOffset < start
    · rw [if_pos prev, mem_cons, mem_cons, ih]
      have kept : ¬(start ≤ head.endOffset ∧ head.offset < stop) := fun both =>
        absurd prev (UInt64.not_lt.mpr both.1)
      constructor
      · rintro (rfl | ⟨mem, stays⟩)
        · exact ⟨.inl rfl, kept⟩
        · exact ⟨.inr mem, stays⟩
      · rintro ⟨rfl | mem, stays⟩
        · exact .inl rfl
        · exact .inr ⟨mem, stays⟩
    · rw [if_neg prev]
      by_cases behind : stop ≤ head.offset
      · rw [if_pos behind]
        -- all later entries start after the chunk too
        refine ⟨fun mem => ⟨mem, fun both => ?_⟩, And.left⟩
        have late : stop ≤ e.offset := by
          obtain rfl | later := mem_cons.mp mem
          · exact behind
          · exact UInt64.le_trans behind (UInt64.le_of_lt (above e later))
        exact absurd both.2 (UInt64.not_lt.mpr late)
      rw [if_neg behind, mem_cons, ih]
      have gone : start ≤ head.endOffset ∧ head.offset < stop :=
        ⟨UInt64.not_lt.mp prev, UInt64.not_le.mp behind⟩
      constructor
      · rintro ⟨mem, stays⟩
        exact ⟨.inr mem, stays⟩
      · rintro ⟨rfl | mem, stays⟩
        · exact absurd gone stays
        · exact ⟨mem, stays⟩

variable (cache : ReadCache) (chunkIndex : UInt32) {e : Entry}

/-- The entries in front of the first one that the loop looks at. -/
theorem mem_firstOverlapping : (e ∈ cache.entries.take (firstOverlapping cache.entries chunkIndex) →
        ¬leastOverlappingOffset chunkIndex ≤ e.offset) ∧
      (e ∈ cache.entries.drop (firstOverlapping cache.entries chunkIndex) →
        leastOverlappingOffset chunkIndex ≤ e.offset) := by
  unfold firstOverlapping
  split
  next pos =>
    have below : ∀ x : UInt64, x ≤ leastOverlappingOffset chunkIndex - 1 ↔
        ¬leastOverlappingOffset chunkIndex ≤ x := by
      intro x
      rw [UInt64.le_iff_toNat_le, UInt64.le_iff_toNat_le, UInt64.toNat_sub_of_le _ _ (by
        exact UInt64.lt_iff_toNat_lt.mp pos)]
      have pos := UInt64.lt_iff_toNat_lt.mp pos
      simp only [UInt64.toNat_one] at pos ⊢
      omega
    constructor
    · intro mem
      have prev := SortedSeq.before_of_mem_take mem
      exact (below e.offset).mp (by simpa using prev)
    · intro mem
      have partitioned : cache.entries.Pairwise (fun a b =>
          decide (b.offset ≤ leastOverlappingOffset chunkIndex - 1) = true →
            decide (a.offset ≤ leastOverlappingOffset chunkIndex - 1) = true) :=
        cache.sorted.imp fun {a b} less small => by
          rw [decide_eq_true_eq] at small ⊢
          exact UInt64.le_trans (UInt64.le_of_lt less) small
      have after := SortedSeq.not_before_of_mem_drop partitioned mem
      have after : ¬e.offset ≤ leastOverlappingOffset chunkIndex - 1 := by simpa using after
      by_contra less
      exact after ((below e.offset).mpr less)
  next zero =>
    have least : leastOverlappingOffset chunkIndex ≤ e.offset := by
      have := UInt64.lt_iff_toNat_lt.not.mp zero
      rw [UInt64.le_iff_toNat_le]
      simp only [UInt64.toNat_zero] at this
      omega
    simp [least]

/-- Exactly the entries of the loop are removed. -/
theorem mem_selectiveClear :
    e ∈ (cache.selectiveClear chunkIndex).entries ↔ e ∈ cache.entries ∧ ¬Removes chunkIndex e := by
  have whole := take_append_drop (firstOverlapping cache.entries chunkIndex) cache.entries
  obtain ⟨front, back⟩ := mem_firstOverlapping cache chunkIndex (e := e)
  unfold selectiveClear Removes
  rw [mem_append, mem_clearFrom (cache.sorted.sublist (drop_sublist _ _))]
  constructor
  · rintro (member | ⟨member, stays⟩)
    · exact ⟨mem_of_mem_take member, fun gone => front member gone.1⟩
    · exact ⟨mem_of_mem_drop member, fun gone => stays gone.2⟩
  · rintro ⟨member, stays⟩
    rw [← whole] at member
    obtain member | member := mem_append.mp member
    · exact .inl member
    · exact .inr ⟨member, fun both => stays ⟨back member, both⟩⟩

/-! ## Which chunk is cleared -/

/-- The number of bytes of a chunk. -/
def chunkSize : ℕ := 2 ^ 26

/-- Some byte of the entry is in the chunk. -/
def Entry.Overlaps (e : Entry) (chunk : ℕ) : Prop :=
  ∃ x, e.offset.toNat ≤ x ∧ x < e.offset.toNat + e.size ∧
    chunk * chunkSize ≤ x ∧ x < (chunk + 1) * chunkSize

/-- The entry overlaps the chunk, or ends where it starts, or starts where it ends. -/
def Entry.Meets (e : Entry) (chunk : ℕ) : Prop :=
  chunk * chunkSize ≤ e.offset.toNat + e.size ∧ e.offset.toNat ≤ (chunk + 1) * chunkSize

/-- The entry starts in the chunk or the one before, and does not end before the chunk. -/
def Entry.Near (e : Entry) (chunk : ℕ) : Prop :=
  (chunk - 1) * chunkSize ≤ e.offset.toNat ∧ e.offset.toNat < (chunk + 1) * chunkSize ∧
    chunk * chunkSize ≤ e.endOffset.toNat

/-- After the call no finished entry overlaps the chunk, and all that do not meet it are there. -/
def Cleared (before after : ReadCache) (chunk : ℕ) : Prop :=
  (∀ e ∈ after.entries, e.done = true → ¬e.Overlaps chunk) ∧
    ∀ e ∈ before.entries, ¬e.Meets chunk → e ∈ after.entries

theorem toNat_endOffset (e : Entry) : e.endOffset.toNat = (e.offset.toNat + e.size) % 2 ^ 64 := by
  rw [Entry.endOffset, UInt64.toNat_add, UInt64.toNat_ofNat']
  omega

theorem toNat_chunkStart : (chunkStart chunkIndex).toNat = chunkIndex.toNat % 64 * chunkSize := by
  rw [chunkStart, UInt32.toNat_toUInt64, UInt32.toNat_mul, chunkSize]
  simp only [UInt32.reduceToNat]
  omega

theorem toNat_chunkEnd : (chunkEnd chunkIndex).toNat = (chunkIndex.toNat % 64 + 1) * chunkSize := by
  rw [chunkEnd, UInt64.toNat_add, toNat_chunkStart, chunkSize]
  simp only [UInt64.reduceToNat]
  omega

theorem toNat_leastOverlappingOffset (pos : chunkIndex.toNat ≠ 0) :
    (leastOverlappingOffset chunkIndex).toNat = (chunkIndex.toNat - 1) % 64 * chunkSize := by
  have above : 0 < chunkIndex := UInt32.lt_iff_toNat_lt.mpr (Nat.pos_of_ne_zero pos)
  have one : (1 : UInt32) ≤ chunkIndex := UInt32.le_iff_toNat_le.mpr (Nat.pos_of_ne_zero pos)
  rw [leastOverlappingOffset, if_pos above, UInt32.toNat_toUInt64, UInt32.toNat_mul,
    UInt32.toNat_sub_of_le _ _ one, chunkSize]
  simp only [UInt32.reduceToNat]
  omega

/-- The chunk that is cleared has the index modulo 64, and nothing is cleared when that is zero
and the index is not. -/
theorem removes_iff : Removes chunkIndex e ↔
      (chunkIndex.toNat < 64 ∨ chunkIndex.toNat % 64 ≠ 0) ∧ e.Near (chunkIndex.toNat % 64) := by
  unfold Removes Entry.Near
  rw [UInt64.le_iff_toNat_le, UInt64.le_iff_toNat_le, UInt64.lt_iff_toNat_lt, toNat_chunkStart,
    toNat_chunkEnd]
  by_cases zero : chunkIndex.toNat = 0
  · have none : leastOverlappingOffset chunkIndex = 0 := by
      rw [leastOverlappingOffset, if_neg]
      rw [UInt32.lt_iff_toNat_lt, zero]
      decide
    simp [zero, none]
  rw [toNat_leastOverlappingOffset chunkIndex zero]
  unfold chunkSize
  by_cases whole : chunkIndex.toNat % 64 = 0
  · omega
  have prev : (chunkIndex.toNat - 1) % 64 = chunkIndex.toNat % 64 - 1 := by omega
  rw [prev]
  constructor
  · rintro ⟨least, start, stop⟩
    exact ⟨.inr whole, least, stop, start⟩
  · rintro ⟨-, least, stop, start⟩
    exact ⟨least, start, stop⟩

/-- A finished entry is not longer than a chunk, so it is near each chunk that it overlaps. -/
theorem near_of_overlaps {chunk : ℕ} (lt : chunk < 64) (short : e.size ≤ chunkSize)
    (h : e.Overlaps chunk) : e.Near chunk := by
  obtain ⟨x, low, high, start, stop⟩ := h
  have pred : (chunk - 1) * chunkSize = chunk * chunkSize - chunkSize := Nat.sub_one_mul _ _
  have le : (chunk + 1) * chunkSize ≤ 64 * chunkSize := Nat.mul_le_mul_right _ lt
  have size : 64 * chunkSize + chunkSize < 2 ^ 64 := by decide
  refine ⟨by omega, by omega, ?_⟩
  rw [toNat_endOffset]
  omega

/-- Clearing a chunk is exact for the first 64 chunks of a file. For any other one it is exactly
when no finished entry overlaps it, and every entry near the chunk that is cleared in its place
meets it. -/
theorem selectiveClear_exact_iff (short : ∀ e ∈ cache.entries, e.done = true → e.size ≤ chunkSize) :
    Cleared cache (cache.selectiveClear chunkIndex) chunkIndex.toNat ↔
      chunkIndex.toNat < 64 ∨
        (∀ e ∈ cache.entries, e.done = true → ¬e.Overlaps chunkIndex.toNat) ∧
          (chunkIndex.toNat % 64 = 0 ∨
            ∀ e ∈ cache.entries, e.Near (chunkIndex.toNat % 64) → e.Meets chunkIndex.toNat) := by
  unfold Cleared
  simp only [mem_selectiveClear, removes_iff]
  by_cases small : chunkIndex.toNat < 64
  · have same : chunkIndex.toNat % 64 = chunkIndex.toNat := Nat.mod_eq_of_lt small
    simp only [small, true_or, true_and, same, iff_true]
    constructor
    · rintro e ⟨member, stays⟩ done overlaps
      exact stays (near_of_overlaps small (short e member done) overlaps)
    · intro e member apart
      refine ⟨member, fun near => apart ?_⟩
      obtain ⟨-, stop, start⟩ := near
      rw [toNat_endOffset] at start
      exact ⟨start.trans (Nat.mod_le _ _), stop.le⟩
  · simp only [small, false_or]
    refine and_congr ?_ ?_
    · refine ⟨fun all e member done overlaps => ?_, fun all e both => all e both.1⟩
      -- the entry is too far from the chunk that is cleared
      refine all e ⟨member, ?_⟩ done overlaps
      rintro ⟨other, near⟩
      obtain ⟨x, -, high, start, -⟩ := overlaps
      obtain ⟨-, stop, -⟩ := near
      have size := short e member done
      unfold chunkSize at *
      omega
    · constructor
      · intro all
        by_cases whole : chunkIndex.toNat % 64 = 0
        · exact .inl whole
        · refine .inr fun e member near => ?_
          by_contra apart
          exact (all e member apart).2 ⟨whole, near⟩
      · rintro (whole | meets) e member apart
        · exact ⟨member, fun both => both.1 whole⟩
        · exact ⟨member, fun both => apart (meets e member both.2)⟩

/-! ### A file of four gigabytes -/

/-- The first block of a chunk, read and finished. -/
def firstBlockOf (chunk : UInt64) : Entry := ⟨chunk * 67108864, 65536, true, 0, false⟩

/-- The first blocks of chunks 1 and 65. -/
def twoBlocks : ReadCache where
  entries := [firstBlockOf 1, firstBlockOf 65]
  reservedEntries := []
  sorted := by decide

theorem selectiveClear_exact_twoBlocks :
    Cleared twoBlocks (twoBlocks.selectiveClear 1) (1 : UInt32).toNat :=
  (selectiveClear_exact_iff twoBlocks 1 (by decide)).mpr (.inl (by decide))

/-- Clearing chunk 65 clears chunk 1 in its place. -/
theorem selectiveClear_wraps :
    (twoBlocks.selectiveClear 65).entries = [firstBlockOf 65] ∧
      (firstBlockOf 65).done = true ∧ (firstBlockOf 65).Overlaps (65 : UInt32).toNat ∧
      firstBlockOf 1 ∈ twoBlocks.entries ∧ ¬(firstBlockOf 1).Meets (65 : UInt32).toNat :=
  ⟨by decide, rfl, ⟨65 * chunkSize, by decide, by decide, by decide, by decide⟩,
    mem_cons_self, fun meets => absurd meets.1 (by decide)⟩

end ReadCache

end LeilFS.Reading
