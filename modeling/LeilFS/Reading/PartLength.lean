/-
Module: LeilFS.Reading.PartLength
Purpose: How long the parts of a chunk are: the bytes of the chunk dealt out block by block, and
  the number of blocks of each part.
Trusted boundary: none
-/
import LeilFS.Reading.Parts

namespace LeilFS.Chunks

namespace ChunkPartType

/-- The number of blocks of a part of a chunk with some blocks
[SPEC slice_traits.h:314-319]. -/
def getNumberOfBlocksIn (cpt : ChunkPartType) (blocksInChunk : ℕ) : ℕ :=
  let dataPartIndex := if cpt.isDataPart then cpt.getDataPartIndex else 0
  (blocksInChunk + (cpt.sliceType.getNumberOfDataParts - dataPartIndex - 1)) /
    cpt.sliceType.getNumberOfDataParts

/-- [SPEC slice_traits.h:335-352] What is left for a part is never negative. -/
def chunkLengthToChunkPartLength (cpt : ChunkPartType) (chunkLength : ℕ) : ℕ :=
  let dataParts := cpt.sliceType.getNumberOfDataParts
  if dataParts = 1 then chunkLength
  else
    let fullStripe := chunkLength / (dataParts * sfsBlockSize)
    let baseLen := fullStripe * sfsBlockSize
    let base := baseLen * dataParts
    let rest := chunkLength - base
    let dataPartIndex := if cpt.isDataPart then cpt.getDataPartIndex else 0
    let partRestLen := rest - dataPartIndex * sfsBlockSize
    baseLen + min partRestLen sfsBlockSize

end ChunkPartType

/-- The number of blocks that cover some bytes. -/
def coveringBlocks (length : ℕ) : ℕ := (length + (sfsBlockSize - 1)) / sfsBlockSize

/-! ## Dealing out -/

/-- What the place of a part in a stripe gets of a length: the full stripes, and what is left in
the last one. -/
def dealt (dataParts length place : ℕ) : ℕ :=
  length / (dataParts * sfsBlockSize) * sfsBlockSize +
    min (length % (dataParts * sfsBlockSize) - place * sfsBlockSize) sfsBlockSize

theorem dealt_antitone (dataParts length : ℕ) {place later : ℕ} (order : place ≤ later) :
    dealt dataParts length later ≤ dealt dataParts length place := by
  have far : place * sfsBlockSize ≤ later * sfsBlockSize := Nat.mul_le_mul_right _ order
  unfold dealt
  omega

/-- The first places together get what is left of the last stripe, up to their size. -/
theorem sum_last_stripe (rest places : ℕ) :
    ∑ place ∈ Finset.range places, min (rest - place * sfsBlockSize) sfsBlockSize =
      min rest (places * sfsBlockSize) := by
  induction places with
  | zero => simp
  | succ places ih =>
    rw [Finset.sum_range_succ, ih, Nat.succ_mul]
    omega

theorem sum_dealt {dataParts : ℕ} (some : 0 < dataParts) (length : ℕ) :
    ∑ place ∈ Finset.range dataParts, dealt dataParts length place = length := by
  have stripe : 0 < dataParts * sfsBlockSize := Nat.mul_pos some sfsBlockSize_pos
  have left := Nat.mod_lt length stripe
  unfold dealt
  rw [Finset.sum_add_distrib, sum_last_stripe, Nat.min_eq_left left.le, Finset.sum_const,
    Finset.card_range, smul_eq_mul, Nat.mul_left_comm, Nat.div_add_mod']

theorem coveringBlocks_add (blocks more : ℕ) :
    coveringBlocks (blocks * sfsBlockSize + more) = blocks + coveringBlocks more := by
  unfold coveringBlocks
  rw [Nat.add_assoc, Nat.mul_comm, Nat.mul_add_div sfsBlockSize_pos]

/-- A place has a block more than the full stripes when the last stripe reaches it. -/
theorem coveringBlocks_dealt {dataParts place : ℕ} (lt : place < dataParts) (length : ℕ) :
    coveringBlocks (dealt dataParts length place) =
      (coveringBlocks length + (dataParts - place - 1)) / dataParts := by
  have some : 0 < dataParts := Nat.zero_lt_of_lt lt
  have left := Nat.mod_lt length (Nat.mul_pos some sfsBlockSize_pos)
  have whole := Nat.div_add_mod' length (dataParts * sfsBlockSize)
  unfold dealt
  generalize length / (dataParts * sfsBlockSize) = full at *
  generalize length % (dataParts * sfsBlockSize) = rest at *
  rw [← whole, ← Nat.mul_assoc, coveringBlocks_add, coveringBlocks_add, Nat.mul_comm full,
    Nat.add_assoc, Nat.mul_add_div some]
  congr 1
  unfold coveringBlocks sfsBlockSize at *
  by_cases reached : place * 65536 < rest
  · rw [Nat.div_eq_of_lt_le (n := dataParts) (k := 1) (by omega) (by omega)]
    omega
  · rw [Nat.div_eq_of_lt (b := dataParts) (by omega)]
    omega

/-! ## The parts of a slice -/

namespace ChunkPartType

variable {type : SliceType}

/-- The place of a part in a stripe: parity parts are as the first one. -/
def place (cpt : ChunkPartType) : ℕ := if cpt.isDataPart then cpt.getDataPartIndex else 0

theorem Valid.place_lt {cpt : ChunkPartType} (h : cpt.Valid) :
    cpt.place < cpt.sliceType.getNumberOfDataParts := by
  unfold place
  split
  · exact h.getDataPartIndex_lt ‹_›
  · exact SliceType.dataParts_pos _

theorem Valid.chunkLengthToChunkPartLength_eq {cpt : ChunkPartType} (h : cpt.Valid)
    (length : ℕ) : cpt.chunkLengthToChunkPartLength length =
      dealt cpt.sliceType.getNumberOfDataParts length cpt.place := by
  have inside := h.place_lt
  unfold chunkLengthToChunkPartLength dealt
  dsimp only
  split
  next single =>
    rw [single] at inside ⊢
    rw [Nat.lt_one_iff.mp inside, Nat.one_mul, Nat.zero_mul, Nat.sub_zero,
      Nat.min_eq_left (Nat.mod_lt _ sfsBlockSize_pos).le, Nat.div_add_mod']
  · rw [Nat.mul_assoc, Nat.mul_comm sfsBlockSize, ← Nat.mod_eq_sub_div_mul]
    rfl

/-- The data parts follow the parity part of an xor slice and precede those of the others. -/
theorem isDataPart_iff (le : type ≤ SliceType.kECLast) {part : ℕ} :
    part < type.expectedParts ∧ isDataPart ⟨type, part⟩ = true ↔
      type.isXor.toNat ≤ part ∧ part < type.isXor.toNat + type.getNumberOfDataParts := by
  rw [SliceType.expectedParts_eq le]
  unfold isDataPart isParityPart SliceType.getNumberOfParityParts
  split_ifs with xor ec
  · simp [xor]
    omega
  · simp [xor]
    omega
  · simp [xor]

theorem place_of_isDataPart {part : ℕ} (data : isDataPart ⟨type, part⟩ = true) :
    place ⟨type, part⟩ = part - type.isXor.toNat := by
  unfold place getDataPartIndex
  cases type.isXor <;> simp [data]

end ChunkPartType

open ChunkPartType

/-- The data parts hold the chunk, parity parts are as long as the longest data part, and both
ways to count the blocks of a part agree. -/
theorem SliceType.striping {type : SliceType} (known : type ≤ SliceType.kECLast) (length : ℕ) :
    ∑ part ∈ Finset.range type.expectedParts with isDataPart ⟨type, part⟩,
      chunkLengthToChunkPartLength ⟨type, part⟩ length = length ∧
    ∀ part < type.expectedParts, let cpt : ChunkPartType := ⟨type, part⟩
      (cpt.isParityPart = true → IsGreatest
        { l | ∃ data < type.expectedParts, isDataPart ⟨type, data⟩ = true ∧
          l = chunkLengthToChunkPartLength ⟨type, data⟩ length }
        (cpt.chunkLengthToChunkPartLength length)) ∧
      coveringBlocks (cpt.chunkLengthToChunkPartLength length) =
        cpt.getNumberOfBlocksIn (coveringBlocks length) := by
  have partLength {part : ℕ} (inside : part < type.expectedParts) :
      chunkLengthToChunkPartLength ⟨type, part⟩ length =
        dealt type.getNumberOfDataParts length (place ⟨type, part⟩) :=
    Valid.chunkLengthToChunkPartLength_eq ⟨known, inside⟩ length
  refine ⟨?_, fun part inside => ⟨fun parity => ⟨?_, ?_⟩, ?_⟩⟩
  · have parts : (Finset.range type.expectedParts).filter
        (fun part => isDataPart ⟨type, part⟩ = true) =
        Finset.Ico type.isXor.toNat (type.isXor.toNat + type.getNumberOfDataParts) := by
      ext part
      rw [Finset.mem_filter, Finset.mem_range, isDataPart_iff known, Finset.mem_Ico]
    rw [parts, Finset.sum_Ico_eq_sum_range, Nat.add_sub_cancel_left]
    refine (Finset.sum_congr rfl fun place member => ?_).trans
      (sum_dealt type.dataParts_pos length)
    obtain ⟨inside, data⟩ := (isDataPart_iff known).mpr
      ⟨Nat.le_add_right _ place, Nat.add_lt_add_left (Finset.mem_range.mp member) _⟩
    rw [partLength inside, place_of_isDataPart data, Nat.add_sub_cancel_left]
  · obtain ⟨first, data⟩ := (isDataPart_iff known).mpr
      ⟨Nat.le_refl _, Nat.lt_add_of_pos_right type.dataParts_pos⟩
    refine ⟨_, first, data, ?_⟩
    rw [partLength inside, partLength first, place_of_isDataPart data, Nat.sub_self]
    simp [place, isDataPart, parity]
  · rintro _ ⟨other, within, data, rfl⟩
    rw [partLength inside, partLength within]
    refine dealt_antitone _ _ ?_
    simp [place, isDataPart, parity]
  · have within : place ⟨type, part⟩ < type.getNumberOfDataParts := Valid.place_lt ⟨known, inside⟩
    rw [partLength inside, coveringBlocks_dealt within]
    rfl

theorem SliceType.striping_ec_3_2 :
    ∑ part ∈ Finset.range 5 with isDataPart ⟨43, part⟩,
      chunkLengthToChunkPartLength ⟨43, part⟩ 500000 = 500000 :=
  (@striping 43 (by decide) 500000).1

end LeilFS.Chunks
