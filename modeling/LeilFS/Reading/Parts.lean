/-
Module: LeilFS.Reading.Parts
Purpose: What the parts of a chunk hold: its blocks dealt out to the data parts, and the parity
  of the stripes.
Trusted boundary: none
-/
import LeilFS.Chunks.Copies
import LeilFS.Erasure.ReedSolomon

namespace LeilFS.Chunks

/-! ## Slice traits -/

def sfsBlockSize : ℕ := 65536

def sfsBlocksInChunk : ℕ := 1024

theorem sfsBlockSize_pos : 0 < sfsBlockSize := by
  decide

/-- [SPEC slice_traits.h:248-256] -/
def SliceType.getNumberOfParityParts (type : SliceType) : ℕ :=
  if type.isXor then 1
  else if type.isEC then 1 + (type - kECFirst) % 32
  else 0

namespace ChunkPartType

def isDataPart (cpt : ChunkPartType) : Bool :=
  !cpt.isParityPart

/-- [SPEC slice_traits.h:286-291] -/
def getDataPartIndex (cpt : ChunkPartType) : ℕ :=
  if cpt.sliceType.isXor then cpt.slicePart - 1 else cpt.slicePart

/-- [SPEC slice_traits.h:293-298] -/
def getParityPartIndex (cpt : ChunkPartType) : ℕ :=
  if cpt.sliceType.isEC then cpt.slicePart - cpt.sliceType.getNumberOfDataParts else 0

/-- The number of blocks of the whole chunk that a part stores
[SPEC slice_traits.h:314-323]. -/
def getNumberOfBlocks (cpt : ChunkPartType) : ℕ :=
  let dataPartIndex := if cpt.isDataPart then cpt.getDataPartIndex else 0
  (sfsBlocksInChunk + (cpt.sliceType.getNumberOfDataParts - dataPartIndex - 1)) /
    cpt.sliceType.getNumberOfDataParts

/-- A part of a slice of a known type [SPEC chunk_part_type.h:193-199]. -/
structure Valid (cpt : ChunkPartType) : Prop where
  type : cpt.sliceType ≤ SliceType.kECLast
  part : cpt.slicePart < cpt.sliceType.expectedParts

end ChunkPartType

namespace SliceType

variable {type : SliceType}

theorem isXor_iff {type : ℕ} : isXor type = true ↔ 2 ≤ type ∧ type ≤ 9 := by
  unfold isXor
  rw [Bool.and_eq_true_iff]
  exact and_congr decide_eq_true_iff decide_eq_true_iff

theorem isEC_iff {type : ℕ} : isEC type = true ↔ 10 ≤ type ∧ type ≤ 1001 := by
  unfold isEC
  rw [Bool.and_eq_true_iff]
  exact and_congr decide_eq_true_iff decide_eq_true_iff

theorem not_isEC_of_isXor (xor : type.isXor = true) : type.isEC = false := by
  have bounds := isXor_iff.mp xor
  rw [Bool.eq_false_iff, Ne, isEC_iff]
  omega

theorem dataParts_of_isEC (ec : type.isEC = true) :
    type.getNumberOfDataParts = 2 + (type - 10) / 32 := by
  have notXor : ¬ type.isXor = true := fun xor => by
    rw [not_isEC_of_isXor xor] at ec
    exact Bool.noConfusion ec
  rw [getNumberOfDataParts, if_neg notXor, if_pos ec]
  rfl

theorem parityParts_of_isEC (ec : type.isEC = true) :
    type.getNumberOfParityParts = 1 + (type - 10) % 32 := by
  have notXor : ¬ type.isXor = true := fun xor => by
    rw [not_isEC_of_isXor xor] at ec
    exact Bool.noConfusion ec
  rw [getNumberOfParityParts, if_neg notXor, if_pos ec]
  rfl

/-- A slice has its data parts and its parity parts. -/
theorem expectedParts_eq (le : type ≤ kECLast) :
    type.expectedParts = type.getNumberOfDataParts + type.getNumberOfParityParts := by
  have last : @LE.le ℕ _ type 1001 := le
  rcases Nat.lt_or_ge type 10 with small | large
  · have all : ∀ type < 10,
        expectedParts type = getNumberOfDataParts type + getNumberOfParityParts type := by
      decide
    exact all type small
  have ec : type.isEC = true := isEC_iff.mpr ⟨large, last⟩
  have notSmall : ¬ type < kECFirst := Nat.not_lt.mpr large
  rw [dataParts_of_isEC ec, parityParts_of_isEC ec, expectedParts, if_neg notSmall]
  have regroup : ∀ n : ℕ, 3 + n / 32 + n % 32 = 2 + n / 32 + (1 + n % 32) := by
    omega
  exact regroup (type - 10)

theorem expectedParts_of_isXor (xor : type.isXor = true) :
    type.expectedParts = type.getNumberOfDataParts + 1 := by
  rw [expectedParts_eq ((isXor_iff.mp xor).2.trans (by decide)), getNumberOfParityParts, if_pos xor]

theorem ec_bounds (ec : type.isEC = true) : type.getNumberOfDataParts ≤ 32 ∧
    1 ≤ type.getNumberOfParityParts ∧ type.getNumberOfParityParts ≤ 32 := by
  have bounds := isEC_iff.mp ec
  rw [dataParts_of_isEC ec, parityParts_of_isEC ec]
  omega

end SliceType

namespace ChunkPartType

variable {cpt : ChunkPartType}

/-- The index of a data part is that of a data part. -/
theorem Valid.getDataPartIndex_lt (h : cpt.Valid) (data : cpt.isDataPart = true) :
    cpt.getDataPartIndex < cpt.sliceType.getNumberOfDataParts := by
  have part := h.part
  rw [SliceType.expectedParts_eq h.type] at part
  have notParity : cpt.isParityPart = false := by
    simpa [isDataPart] using data
  unfold getDataPartIndex
  unfold isParityPart at notParity
  split at notParity
  case isTrue xor =>
    rw [if_pos xor]
    rw [SliceType.getNumberOfParityParts, if_pos xor] at part
    have := of_decide_eq_false notParity
    omega
  case isFalse notXor =>
    rw [if_neg notXor]
    split at notParity
    case isTrue ec =>
      have := of_decide_eq_false notParity
      omega
    case isFalse notEC =>
      rw [SliceType.getNumberOfParityParts, if_neg notXor, if_neg notEC] at part
      exact part

end ChunkPartType

end LeilFS.Chunks

namespace LeilFS.Reading

open LeilFS.Chunks LeilFS.Erasure SliceType
open ChunkPartType (isParityPart isDataPart getDataPartIndex getNumberOfBlocks)
open GaussJordan (dot)

/-! ## What parts hold -/

/-- The bytes of a chunk. -/
abbrev Content := ℕ → GF256

/-- A byte of a block; beyond the end of the chunk there are zeros. -/
def blockByte (chunk : Content) (block byte : ℕ) : GF256 :=
  if block < sfsBlocksInChunk then chunk (block * sfsBlockSize + byte) else 0

/-- The byte at an offset in one of `k` data parts, which hold the blocks in turn. -/
def dataByte (chunk : Content) (k i a : ℕ) : GF256 :=
  blockByte chunk (a / sfsBlockSize * k + i) (a % sfsBlockSize)

/-- The byte at an offset in a part: of a data part, or the parity of the stripe. -/
def partByte (chunk : Content) (cpt : ChunkPartType) (a : ℕ) : GF256 :=
  let k := cpt.sliceType.getNumberOfDataParts
  let m := cpt.sliceType.getNumberOfParityParts
  if cpt.isParityPart then
    if cpt.sliceType.isXor then ∑ i ∈ Finset.range k, dataByte chunk k i a
    else dot ((createRSMatrix k m).getD cpt.slicePart []) fun j => dataByte chunk k j a
  else dataByte chunk k cpt.getDataPartIndex a

theorem dataByte_eq_zero (chunk : Content) {k i a : ℕ} (lt : i < k)
    (le : (sfsBlocksInChunk + (k - i - 1)) / k ≤ a / sfsBlockSize) : dataByte chunk k i a = 0 := by
  have pos : 0 < k := by omega
  have past : ¬ a / sfsBlockSize * k + i < sfsBlocksInChunk := by
    have := (Nat.div_lt_iff_lt_mul pos).mp (Nat.lt_succ_of_le le)
    rw [Nat.succ_mul] at this
    omega
  rw [dataByte, blockByte, if_neg past]

/-- Beyond the blocks of a part there are zeros. -/
theorem partByte_eq_zero (chunk : Content) {cpt : ChunkPartType} (h : cpt.Valid) {a : ℕ}
    (le : cpt.getNumberOfBlocks * sfsBlockSize ≤ a) : partByte chunk cpt a = 0 := by
  have blocks : cpt.getNumberOfBlocks ≤ a / sfsBlockSize :=
    (Nat.le_div_iff_mul_le sfsBlockSize_pos).mpr le
  unfold getNumberOfBlocks at blocks
  unfold partByte
  -- the first data part has as many blocks as the parity, and no data part has more
  have parityZero (parity : cpt.isParityPart = true) : ∀ i < cpt.sliceType.getNumberOfDataParts,
      dataByte chunk cpt.sliceType.getNumberOfDataParts i a = 0 := by
    intro i inside
    refine dataByte_eq_zero chunk inside (le_trans ?_ blocks)
    rw [isDataPart, parity]
    exact Nat.div_le_div_right (by simp only [Bool.not_true, Bool.false_eq_true, if_false]; omega)
  split
  case isTrue parity =>
    split
    · exact Finset.sum_eq_zero fun i mem => parityZero parity i (Finset.mem_range.mp mem)
    case isFalse notXor =>
      have ec : cpt.sliceType.isEC = true := by
        unfold isParityPart at parity
        rw [if_neg notXor] at parity
        by_contra notEC
        rw [if_neg notEC] at parity
        exact Bool.noConfusion parity
      obtain ⟨fewData, -, few⟩ := ec_bounds ec
      have lt : cpt.slicePart < cpt.sliceType.getNumberOfDataParts +
          cpt.sliceType.getNumberOfParityParts :=
        expectedParts_eq h.type ▸ h.part
      have width := ReedSolomon.length_row (generator_createRSMatrix fewData few) lt
      refine Finset.sum_eq_zero fun i mem => ?_
      dsimp only
      rw [parityZero parity i (width ▸ Finset.mem_range.mp mem), mul_zero]
  case isFalse data =>
    have isData : cpt.isDataPart = true := by
      simpa [isDataPart] using data
    rw [if_pos isData] at blocks
    exact dataByte_eq_zero chunk (h.getDataPartIndex_lt isData) blocks

/-! ## Slices -/

variable {type : SliceType}

/-- The data parts of an xor slice are numbered from one. -/
theorem partByte_xor_succ (chunk : Content) (xor : type.isXor = true)
    (i a : ℕ) : partByte chunk ⟨type, i + 1⟩ a = dataByte chunk type.getNumberOfDataParts i a := by
  simp [partByte, isParityPart, xor, getDataPartIndex]

theorem partByte_xor_zero (chunk : Content) (xor : type.isXor = true)
    (a : ℕ) : partByte chunk ⟨type, 0⟩ a = ∑ i ∈ Finset.range type.getNumberOfDataParts,
        dataByte chunk type.getNumberOfDataParts i a := by
  simp [partByte, isParityPart, xor]

theorem GF256.add_self (x : GF256) : x + x = 0 :=
  GF256.ext (UInt8.xor_self ..)

/-- The parts of an xor slice add up to nothing. -/
theorem sum_partByte_of_isXor (chunk : Content) (xor : type.isXor = true)
    (a : ℕ) : ∑ part ∈ Finset.range type.expectedParts, partByte chunk ⟨type, part⟩ a = 0 := by
  have le : type ≤ kECLast :=
    (isXor_iff.mp xor).2.trans (by decide)
  have parts : type.expectedParts = type.getNumberOfDataParts + 1 := by
    rw [expectedParts_eq le, getNumberOfParityParts, if_pos xor]
  rw [parts, Finset.sum_range_succ', partByte_xor_zero chunk xor,
    Finset.sum_congr rfl fun i _ => partByte_xor_succ chunk xor i a]
  exact GF256.add_self _

/-- The parts of an erasure coded slice are those of a code word. -/
theorem partByte_of_isEC (chunk : Content) (ec : type.isEC = true)
    (part a : ℕ) : partByte chunk ⟨type, part⟩ a =
      dot ((createRSMatrix type.getNumberOfDataParts type.getNumberOfParityParts).getD part [])
        fun j => dataByte chunk type.getNumberOfDataParts j a := by
  have notXor : ¬ type.isXor = true := fun xor => by
    rw [not_isEC_of_isXor xor] at ec
    exact Bool.noConfusion ec
  obtain ⟨fewData, -, few⟩ := ec_bounds ec
  unfold partByte
  split
  · rfl
  case isFalse data =>
    have lt : part < type.getNumberOfDataParts := by
      simpa [isParityPart, notXor, ec] using data
    rw [ReedSolomon.dot_dataRow (generator_createRSMatrix fewData few) lt,
      getDataPartIndex, if_neg notXor]

/-- A data part holds the blocks of the chunk that are its turn. -/
theorem partByte_of_isDataPart (chunk : Content) {cpt : ChunkPartType}
    (data : cpt.isDataPart = true) (a : ℕ) : partByte chunk cpt a =
      dataByte chunk cpt.sliceType.getNumberOfDataParts cpt.getDataPartIndex a := by
  have notParity : cpt.isParityPart = false := by
    simpa [isDataPart] using data
  simp [partByte, notParity]

end LeilFS.Reading
