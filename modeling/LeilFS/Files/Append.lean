/-
Module: LeilFS.Files.Append
Purpose: Appending the chunks of one file to another, and when the bytes of both files stay.
Trusted boundary: none
-/
import LeilFS.Files.SetLength

namespace LeilFS.Files

open List Chunks
open Nodes (InodeId)

namespace ChunkTable

/-- [SPEC filesystem_node_types.h:249-255] The slots up to the last one that is not a
hole. -/
def chunkCount (t : ChunkTable) : Nat := (t.ids.rdropWhile (· = 0)).length

/-- `resizeFileChunkTable` -/
def resize (t : ChunkTable) (newSize : UInt32) : ChunkTable :=
  ⟨t.ids.take newSize.toNat ++ replicate (newSize.toNat - t.ids.length) 0, by
    have := newSize.toNat_lt
    rw [length_append, length_take, length_replicate]
    omega⟩

/-- The chunks of another table come into the slots from an index on
[SPEC filesystem_node.cc:1594-1596]. -/
def copyChunks (src : ChunkTable) (base : Nat) : Nat → ChunkTable → ChunkTable
  | 0, t => t
  | n + 1, t =>
      let t := copyChunks src base n t
      if src.slot n = 0 then t else t.set (UInt32.ofNat (base + n)) (src.slot n)

variable {t src : ChunkTable} {base : Nat}

theorem slot_of_chunkCount_le {i : Nat} (outside : t.chunkCount ≤ i) : t.slot i = 0 := by
  have split := rdropWhile_append_rtakeWhile (l := t.ids) (p := (· = 0))
  rw [slot, getD_eq_getElem?_getD, ← split, getElem?_append_right outside]
  generalize i - _ = rest
  cases found : (t.ids.rtakeWhile (· = 0))[rest]? with
  | none => rfl
  | some id => simpa using mem_rtakeWhile_imp (mem_of_getElem? found)

theorem slot_resize (newSize : UInt32) (i : Nat) :
    (t.resize newSize).slot i = if i < newSize.toNat then t.slot i else 0 := by
  unfold slot resize
  grind

theorem length_resize (newSize : UInt32) : (t.resize newSize).ids.length = newSize.toNat := by
  rw [resize, length_append, length_take, length_replicate]
  omega

/-- The slots from the index on are those of the other table, where they were holes. -/
theorem slot_copyChunks {n : Nat} (le : base + n ≤ t.ids.length)
    (holes : ∀ i, base ≤ i → t.slot i = 0) :
    (copyChunks src base n t).ids.length = t.ids.length ∧ ∀ i, (copyChunks src base n t).slot i =
      if base ≤ i ∧ i < base + n then src.slot (i - base) else t.slot i := by
  induction n with
  | zero => grind [copyChunks]
  | succ n ih =>
    obtain ⟨sized, slots⟩ := ih (by omega)
    have index : (UInt32.ofNat (base + n)).toNat = base + n :=
      UInt32.toNat_ofNat_of_lt' (lt_trans (by omega) t.fits)
    unfold copyChunks
    split
    · grind
    · refine ⟨by rw [set, length_set, sized], fun i => ?_⟩
      rw [slot_set _ _ (by omega), slots i]
      grind

end ChunkTable

/-- The bytes of a file, by the bytes of the chunks; holes are read as zeros. -/
def FSNodeFile.content (file : FSNodeFile) (data : ChunkId → Nat → UInt8) (offset : Nat) :
    Option UInt8 :=
  if offset < file.length.toNat then
    let id := file.chunks.slot (offset / chunkSize)
    some (if id = 0 then 0 else data id (offset % chunkSize))
  else none

/-- The number of chunks that a file of this length has at least. -/
def FSNodeFile.span (file : FSNodeFile) : Nat :=
  (file.length.toNat + (chunkSize - 1)) / chunkSize

namespace FileStore

/-- [SPEC filesystem_node.cc:1553-1659] A reference that cannot be added is only logged. -/
def appendChunks (s : FileStore) (inode : InodeId) (dest src : FSNodeFile) : Status × FileStore :=
  if src.chunks.size = 0 then (.ok, s)
  else
    let srcChunks := src.chunks.chunkCount
    let dstChunks := dest.chunks.chunkCount
    if 0x7FFFFFFF + 1 < srcChunks + dstChunks then (.indexTooBig, s)
    else
      let chunks := dest.chunks.resize (UInt32.ofNat (srcChunks + dstChunks))
      (.ok, { s with
        chunks := (src.chunks.live 0).foldl (fun r id => (r.addFile id dest.goal).2) s.chunks
        }.setFile inode { dest with
          chunks := src.chunks.copyChunks dstChunks srcChunks chunks
          length := (UInt64.ofNat dstChunks <<< 26) + src.length })

/-- What appending is to leave: the bytes of the destination, and those of the source from the next
chunk boundary on. -/
structure Appended (dest src after : FSNodeFile) : Prop where
  kept : ∀ data, ∀ offset < dest.length.toNat,
    after.content data offset = dest.content data offset
  longer : dest.length.toNat + src.length.toNat ≤ after.length.toNat
  moved : ∀ data, ∀ offset < src.length.toNat,
    after.content data (dest.span * chunkSize + offset) = src.content data offset

/-- The destination ends with a chunk, and nothing is between its end and the source. -/
structure Joins (dest src : FSNodeFile) : Prop where
  full : dest.span ≤ dest.chunks.chunkCount
  fits : dest.chunks.chunkCount * chunkSize + src.length.toNat < 2 ^ 64
  follows : ∀ i, i * chunkSize < src.length.toNat →
    (if dest.span + i < dest.chunks.chunkCount then dest.chunks.slot (dest.span + i)
      else src.chunks.slot (dest.span + i - dest.chunks.chunkCount)) = src.chunks.slot i

/-- Files with the same bytes at two places, whatever the chunks hold, have the same chunk there. -/
theorem slot_eq_of_content {file other : FSNodeFile} {x y : Nat}
    (eq : ∀ data, file.content data x = other.content data y)
    (lt : x < file.length.toNat) (lt' : y < other.length.toNat) :
    file.chunks.slot (x / chunkSize) = other.chunks.slot (y / chunkSize) := by
  have here := eq fun id _ => if id = file.chunks.slot (x / chunkSize) then 1 else 0
  have back := eq fun id _ => if id = other.chunks.slot (y / chunkSize) then 1 else 0
  unfold FSNodeFile.content at here back
  grind

theorem appended_iff {dest src after : FSNodeFile} (few : dest.chunks.chunkCount ≤ 2 ^ 31)
    (length : after.length.toNat = (dest.chunks.chunkCount * chunkSize + src.length.toNat) % 2 ^ 64)
    (slots : ∀ i, after.chunks.slot i = if i < dest.chunks.chunkCount then dest.chunks.slot i
      else src.chunks.slot (i - dest.chunks.chunkCount)) :
    Appended dest src after ↔ Joins dest src := by
  have size : chunkSize = 2 ^ 26 := rfl
  have place (i offset : Nat) : (i * chunkSize + offset) / chunkSize = i + offset / chunkSize ∧
      (i * chunkSize + offset) % chunkSize = offset % chunkSize := by
    rw [size]
    omega
  have span : dest.span = (dest.length.toNat + (2 ^ 26 - 1)) / 2 ^ 26 := rfl
  constructor
  · rintro ⟨-, longer, moved⟩
    have lt : dest.chunks.chunkCount * chunkSize + src.length.toNat < 2 ^ 64 := by
      rw [size] at length ⊢
      omega
    rw [Nat.mod_eq_of_lt lt] at length
    have full : dest.span ≤ dest.chunks.chunkCount := by
      rw [size] at length
      omega
    have reach : dest.span * chunkSize + src.length.toNat ≤ after.length.toNat := by
      rw [length]
      exact Nat.add_le_add_right (Nat.mul_le_mul_right _ full) _
    refine ⟨full, lt, fun i inside => ?_⟩
    have eq := slot_eq_of_content (moved · _ inside) (by omega) inside
    rw [(place _ _).1, Nat.mul_div_cancel _ (by decide), slots] at eq
    exact eq
  · rintro ⟨full, lt, follows⟩
    rw [Nat.mod_eq_of_lt lt] at length
    refine ⟨fun data offset inside => ?_, by rw [length, size]; omega, fun data offset inside => ?_⟩
    · have here := slots (offset / chunkSize)
      rw [if_pos (by rw [size]; omega)] at here
      unfold FSNodeFile.content
      rw [here, if_pos inside, if_pos (by rw [length, size]; omega)]
    · have here := follows (offset / chunkSize) (by rw [size]; omega)
      unfold FSNodeFile.content
      rw [(place _ _).1, (place _ _).2, slots, here, if_pos inside,
        if_pos (by rw [length, size]; omega)]

/-- Appending does so exactly when an empty table stands for an empty source, and otherwise the
source joins the destination. -/
theorem appendChunks_keeps_iff (s : FileStore) {s' : FileStore} (inode : InodeId)
    {dest src after : FSNodeFile}
    (there : s.file inode = some dest) (done : s.appendChunks inode dest src = (.ok, s'))
    (result : s'.file inode = some after) :
    Appended dest src after ↔
      if src.chunks.ids = [] then src.length = 0 else Joins dest src := by
  have empty : src.chunks.size = 0 ↔ src.chunks.ids = [] := by
    rw [← UInt32.toNat_inj, ChunkTable.size_toNat, UInt32.toNat_zero, length_eq_zero_iff]
  unfold appendChunks at done
  split at done
  next none =>
    cases done
    obtain rfl := Option.some.inj (there.symm.trans result)
    rw [if_pos (empty.mp none)]
    refine ⟨fun ⟨_, longer, _⟩ => ?_,
      fun zero => ⟨fun _ _ _ => rfl, by simp [zero], by simp [zero]⟩⟩
    rw [← UInt64.toNat_inj, UInt64.toNat_zero]
    omega
  next some =>
    rw [if_neg (mt empty.mpr some)]
    dsimp only at done
    split at done
    · cases done
    cases done
    rw [setFile, file, Finmap.lookup_insert, Option.some.injEq] at result
    subst result
    refine appended_iff (by omega) ?_ fun i => ?_
    · rw [UInt64.toNat_add, UInt64.toNat_shiftLeft,
        UInt64.toNat_ofNat_of_lt' (lt_trans (by omega : _ < 2 ^ 32) (by decide)),
        show UInt64.toNat 26 % 64 = 26 from rfl]
      unfold chunkSize
      omega
    · have sum : (UInt32.ofNat (src.chunks.chunkCount + dest.chunks.chunkCount)).toNat =
          src.chunks.chunkCount + dest.chunks.chunkCount :=
        UInt32.toNat_ofNat_of_lt' (show _ < 2 ^ 32 by omega)
      rw [(ChunkTable.slot_copyChunks (by rw [ChunkTable.length_resize]; omega)
        fun i high => by rw [ChunkTable.slot_resize, ChunkTable.slot_of_chunkCount_le high,
          ite_self]).2]
      have := @ChunkTable.slot_of_chunkCount_le src.chunks (i - dest.chunks.chunkCount)
      grind [ChunkTable.slot_resize]

/-- A file with one chunk. -/
def oneChunk (id : ChunkId) (length : UInt64) : FSNodeFile := ⟨.file, 1, length, ⟨[id], by simp⟩⟩

/-- Ten bytes come after a file of one chunk. -/
theorem appendChunks_oneChunk : ∃ s' after,
    withOneFile.appendChunks 5 (oneChunk 7 1000) (oneChunk 9 10) = (.ok, s') ∧
      s'.file 5 = some after ∧ Appended (oneChunk 7 1000) (oneChunk 9 10) after := by
  refine ⟨_, _, rfl, rfl, (appendChunks_keeps_iff withOneFile 5 rfl rfl rfl).mpr
    ⟨by decide, by decide, fun i inside => ?_⟩⟩
  obtain rfl : i = 0 := by
    have : i * 2 ^ 26 < 10 := inside
    omega
  decide

/-- A file of four chunks of which only the first is there becomes shorter. -/
theorem appendChunks_cuts_hole : ∃ s' after,
    (withOneFile.setFile 5 (oneChunk 7 0x10000000)).appendChunks 5 (oneChunk 7 0x10000000)
        (oneChunk 9 10) = (.ok, s') ∧
      s'.file 5 = some after ∧ after.length < 0x10000000 ∧
      ¬ Appended (oneChunk 7 0x10000000) (oneChunk 9 10) after :=
  ⟨_, _, rfl, rfl, by decide, fun appended => absurd appended.longer (by decide)⟩

end FileStore

end LeilFS.Files
