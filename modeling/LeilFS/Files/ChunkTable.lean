/-
Module: LeilFS.Files.ChunkTable
Purpose: The table of the chunks of a file, and the indexes that a length is turned into.
Trusted boundary: none
-/
import LeilFS.Chunks.Registry

namespace LeilFS.Files

open List

open Chunks (ChunkId)

/-!
A file keeps the numbers of its chunks in a vector with a size of 32 bits; the number 0 stands
for a hole [SPEC filesystem_node_types.h:217-249, filesystem_node.cc:399-472].
-/

structure ChunkTable where
  ids : List ChunkId
  fits : ids.length < 2 ^ 32
deriving DecidableEq

/-- `SFSCHUNKSIZE` -/
def chunkSize : Nat := 2 ^ 26

namespace ChunkTable

/-- The chunk of a slot; slots outside of the table hold none. -/
def slot (t : ChunkTable) (i : Nat) : ChunkId := t.ids.getD i 0

/-- `getFileChunkId` -/
def get (t : ChunkTable) (index : UInt32) : ChunkId := t.slot index.toNat

/-- `setFileChunkId` -/
def set (t : ChunkTable) (index : UInt32) (id : ChunkId) : ChunkTable :=
  ⟨t.ids.set index.toNat id, by rw [List.length_set]; exact t.fits⟩

/-- `getFileChunkTableSize` -/
def size (t : ChunkTable) : UInt32 := UInt32.ofNat t.ids.length

/-- What `truncateFileChunks` leaves. -/
def truncate (t : ChunkTable) (newSize : UInt32) : ChunkTable :=
  ⟨t.ids.take newSize.toNat, (List.length_take_le' _ _).trans_lt t.fits⟩

/-- The chunks that `forEachFileChunk` and `truncateFileChunks` visit from an index on. -/
def live (t : ChunkTable) (fromIndex : Nat) : List ChunkId :=
  (t.ids.drop fromIndex).filter (· ≠ 0)

variable (t : ChunkTable)

theorem size_toNat : t.size.toNat = t.ids.length := by
  exact UInt32.toNat_ofNat_of_lt' t.fits

theorem slot_of_le {i : Nat} (outside : t.ids.length ≤ i) : t.slot i = 0 := by
  rw [slot, getD_eq_getElem?_getD, getElem?_eq_none outside]
  rfl

theorem slot_set (index : UInt32) (lt : index.toNat < t.ids.length) (id : ChunkId) (i : Nat) :
    (t.set index id).slot i = if i = index.toNat then id else t.slot i := by
  unfold slot set
  rw [getD_eq_getElem?_getD, getD_eq_getElem?_getD, getElem?_set]
  by_cases here : i = index.toNat
  · rw [if_pos here.symm, if_pos here, if_pos lt]
    rfl
  · rw [if_neg fun eq => here eq.symm, if_neg here]

theorem slot_truncate (newSize : UInt32) (i : Nat) :
    (t.truncate newSize).slot i = if i < newSize.toNat then t.slot i else 0 := by
  unfold slot truncate
  rw [getD_eq_getElem?_getD, getElem?_take]
  split <;> rfl

end ChunkTable

/-! ## Lengths -/

/-- The index of the chunk that a length ends in, as `trySetLength` computes it. -/
def boundaryIndex (length : UInt64) : UInt32 := (length >>> 26).toUInt32

/-- `length & SFSCHUNKMASK` -/
def boundaryLength (length : UInt64) : UInt64 := length &&& 0x3FFFFFF

/-- The number of chunks that a length takes, as `setLength` computes it. -/
def chunksOfLength (length : UInt64) : UInt32 :=
  if 0 < length then (((length - 1) >>> 26) + 1).toUInt32 else 0

theorem boundaryIndex_toNat (length : UInt64) :
    (boundaryIndex length).toNat = length.toNat / chunkSize % 2 ^ 32 := by
  rw [boundaryIndex, UInt64.toNat_toUInt32, UInt64.toNat_shiftRight, Nat.shiftRight_eq_div_pow]
  rfl

theorem boundaryLength_toNat (length : UInt64) :
    (boundaryLength length).toNat = length.toNat % chunkSize := by
  rw [boundaryLength]
  exact Nat.and_two_pow_sub_one_eq_mod length.toNat 26

/-- Both indexes are the low 32 bits of the right ones. -/
theorem chunksOfLength_toNat (length : UInt64) :
    (chunksOfLength length).toNat = (length.toNat + (chunkSize - 1)) / chunkSize % 2 ^ 32 := by
  unfold chunksOfLength
  by_cases some : 0 < length
  · have pos : 0 < length.toNat := by simpa [UInt64.lt_iff_toNat_lt] using some
    have one : (1 : UInt64).toNat = 1 := rfl
    rw [if_pos some, UInt64.toNat_toUInt32, UInt64.toNat_add, UInt64.toNat_shiftRight,
      UInt64.toNat_sub_of_le _ _ (UInt64.le_iff_toNat_le.mpr (by rw [one]; omega)),
      show (26 : UInt64).toNat % 64 = 26 from rfl]
    unfold chunkSize
    omega
  · have zero : length = 0 := by simpa [← UInt64.toNat_inj] using some
    rw [zero]
    rfl

end LeilFS.Files
