/-
Module: LeilFS.Reading.Recovery
Purpose: Recovering one part of a chunk from parts of any types, by reading it, by picking its
  blocks from the chunk, or by computing the parity of the chunk.
Trusted boundary: none
-/
import LeilFS.Reading.ChunkPlanner

namespace LeilFS.Reading

open Nat SliceReadPlanner List LeilFS.Chunks LeilFS.Erasure
open GaussJordan (dot)
open ReadPlan (Laid Stored)

/-! ## The planner -/

inductive RecoveryType where
  | readDataPart
  | recoverDataPart
  | recoverParityPart
deriving Repr, DecidableEq

/-- The planner with what it was last prepared for. -/
structure SliceRecoveryPlanner where
  slicePlanner : SliceReadPlanner
  chunkPlanner : ChunkReadPlanner
  recoveringPart : ChunkPartType
  isReadingPossible : Bool
  recoveryType : RecoveryType
  firstBlock : ℕ
  blockCount : ℕ

namespace SliceRecoveryPlanner

/-- A planner that is not prepared for anything. -/
def new (scores : ChunkPartType → Option ℚ) : SliceRecoveryPlanner :=
  ⟨SliceReadPlanner.new (fun n => n) scores, ChunkReadPlanner.new (fun n => n) scores,
    ⟨SliceType.kStandard, 0⟩, false, .readDataPart, 0, 0⟩

/-- [SPEC slice_recovery_planner.h:89-122] -/
def prepare (planner : SliceRecoveryPlanner) (chunkPart : ChunkPartType)
    (firstBlock blockCount : ℕ) (available : List ChunkPartType) : SliceRecoveryPlanner :=
  let slicePlanner := planner.slicePlanner.prepare chunkPart.sliceType [chunkPart.slicePart]
    available
  let dataPartCount := chunkPart.sliceType.getNumberOfDataParts
  let started := { planner with
    recoveringPart := chunkPart
    firstBlock := firstBlock
    blockCount := blockCount
    isReadingPossible := false
    slicePlanner := slicePlanner }
  if slicePlanner.canRead then
    { started with isReadingPossible := true, recoveryType := .readDataPart }
  else if chunkPart.isDataPart then
    let chunkPlanner := planner.chunkPlanner.prepare
      (chunkPart.getDataPartIndex + firstBlock * dataPartCount)
      (1 + (blockCount - 1) * dataPartCount) available
    if chunkPlanner.isReadingPossible then
      { started with
        chunkPlanner := chunkPlanner
        isReadingPossible := true
        recoveryType := .recoverDataPart }
    else { started with chunkPlanner := chunkPlanner }
  else
    let chunkPlanner := planner.chunkPlanner.prepare (firstBlock * dataPartCount)
      (blockCount * dataPartCount) available
    if chunkPlanner.isReadingPossible then
      { started with
        chunkPlanner := chunkPlanner
        isReadingPossible := true
        recoveryType := .recoverParityPart }
    else { started with chunkPlanner := chunkPlanner }

/-- [SPEC slice_recovery_planner.h:149-206] -/
def buildPlan (planner : SliceRecoveryPlanner) : ReadPlan :=
  let part := planner.recoveringPart
  let dataPartCount := part.sliceType.getNumberOfDataParts
  match planner.recoveryType with
  | .readDataPart =>
      planner.slicePlanner.buildPlanFor planner.firstBlock planner.blockCount false
  | .recoverDataPart =>
      planner.chunkPlanner.buildPlan.withProcessing (planner.blockCount * sfsBlockSize)
        (.partBlocks planner.blockCount dataPartCount)
  | .recoverParityPart =>
      if part.sliceType.isXor then
        planner.chunkPlanner.buildPlan.withProcessing (planner.blockCount * sfsBlockSize)
          (.xorParity dataPartCount planner.blockCount)
      else if part.sliceType.isEC then
        planner.chunkPlanner.buildPlan.withProcessing (planner.blockCount * sfsBlockSize)
          (.ecParity dataPartCount part.sliceType.getNumberOfParityParts part.getParityPartIndex
            planner.blockCount)
      else planner.chunkPlanner.buildPlan

/-! ## What a plan has to do -/

/-- The plan brings back the blocks of a part: its regions do not meet, no operation begins
beyond the end of its part, reading all of its parts finishes it, and whenever it counts as
finished the buffer begins with the blocks. -/
structure Recovers (plan : ReadPlan) (cpt : ChunkPartType) (firstBlock blockCount : ℕ) :
    Prop where
  separate : plan.Separate
  starts : ∀ entry ∈ plan.readOperations,
    entry.2.requestOffset ≤ entry.1.getNumberOfBlocks * sfsBlockSize
  finishes : plan.isReadingFinished (plan.readOperations.map Prod.fst) = true
  part : ∀ (chunk : Content) (finished : List ChunkPartType) (mem : Memory),
    Stored plan chunk plan.readOffset finished mem → plan.isReadingFinished finished = true →
      (plan.postProcessData 0 mem finished).size = blockCount * sfsBlockSize ∧
        ∀ a < blockCount * sfsBlockSize, (plan.postProcessData 0 mem finished).memory a =
          partByte chunk cpt (firstBlock * sfsBlockSize + a)

variable {cpt : ChunkPartType} {firstBlock blockCount : ℕ} {available : List ChunkPartType}

/-- An offset in a range of a data part, by its block and its place there. -/
theorem dataByte_range (chunk : Content) (k j firstBlock i : ℕ) {o : ℕ} (place : o < sfsBlockSize) :
    dataByte chunk k j (firstBlock * sfsBlockSize + (i * sfsBlockSize + o)) =
      blockByte chunk (firstBlock * k + i * k + j) o := by
  have offset : firstBlock * sfsBlockSize + (i * sfsBlockSize + o)
      = o + (firstBlock + i) * sfsBlockSize := by
    ring
  rw [dataByte, offset, add_mul_div_right _ _ sfsBlockSize_pos, div_eq_of_lt place,
    Nat.zero_add, add_mul_mod_self_right, mod_eq_of_lt place, add_mul]

theorem getNumberOfBlocks_le (cpt : ChunkPartType) : cpt.getNumberOfBlocks ≤
    sfsBlocksInChunk / cpt.sliceType.getNumberOfDataParts + 1 := by
  have pos := SliceType.dataParts_pos cpt.sliceType
  rw [← Nat.add_div_right _ pos]
  exact Nat.div_le_div_right (by omega)

/-- A block of a part belongs to a stripe that begins inside the chunk. -/
theorem stripe_lt (early : firstBlock < cpt.getNumberOfBlocks) :
    firstBlock * cpt.sliceType.getNumberOfDataParts < sfsBlocksInChunk := by
  have pos := SliceType.dataParts_pos cpt.sliceType
  have bound := (le_div_iff_mul_le pos).mp early
  rw [succ_mul] at bound
  omega

/-- A block of a data part is a block of the chunk. -/
theorem dataBlock_lt (h : cpt.Valid) (data : cpt.isDataPart = true)
    (early : firstBlock < cpt.getNumberOfBlocks) :
    cpt.getDataPartIndex + firstBlock * cpt.sliceType.getNumberOfDataParts < sfsBlocksInChunk := by
  have index := h.getDataPartIndex_lt data
  unfold ChunkPartType.getNumberOfBlocks at early
  rw [if_pos data] at early
  have bound := (le_div_iff_mul_le (by omega)).mp early
  rw [succ_mul] at bound
  omega

/-- The part is read, or recovered with the parts of its own slice. -/
theorem recovers_read {planner : SliceReadPlanner} (h : planner.Ready)
    (type : planner.sliceType = cpt.sliceType) (part : planner.sliceParts = [cpt.slicePart])
    (early : firstBlock < cpt.getNumberOfBlocks) :
    Recovers (planner.buildPlanFor firstBlock blockCount false) cpt firstBlock blockCount := by
  obtain ⟨⟨⟨typed, asked, none⟩, slot, slots, laid⟩, finishes⟩ :=
    built_buildPlanFor h firstBlock blockCount false
  set plan := planner.buildPlanFor firstBlock blockCount false
  have start : firstBlock ≤ sfsBlocksInChunk / plan.sliceType.getNumberOfDataParts := by
    have := early.trans_le (getNumberOfBlocks_le cpt)
    rw [typed, type]
    omega
  refine ⟨laid.separate, fun entry member => laid.starts start member, finishes,
    fun chunk done mem stored complete => ?_⟩
  have noOffset : plan.readOffset = 0 := by simp [ReadPlan.readOffset, none]
  have count : plan.requestedParts.length = 1 := by
    rw [asked, length_requested, part, length_singleton]
  have only : (plan.requestedParts.getD 0 ⟨0, 0⟩).part = cpt.slicePart := by
    rw [asked]
    simp [emptyPlan, part]
  rw [noOffset] at stored
  rw [ReadPlan.postProcessData_of_none none]
  refine ⟨by rw [count, laid.partSize, one_mul], fun a bound => ?_⟩
  have value := ReadPlan.postProcessRead_requested stored laid
    (by rw [typed]; exact h.known) complete (count ▸ Nat.one_pos) (laid.partSize ▸ bound)
  rwa [only, typed, type, Nat.zero_mul, Nat.zero_add] at value

variable {planner : ChunkReadPlanner}

/-- A function computes the part from a range of blocks of the chunk that was read. -/
theorem recovers_processed {chunkFirst chunkCount : ℕ}
    (chosen : planner.Chosen chunkFirst chunkCount) (early : chunkFirst < sfsBlocksInChunk)
    (someChunk : 0 < chunkCount) (some : 0 < blockCount) {process : PostProcess}
    (computes : ∀ (chunk : Content) (mem : Memory), (∀ i < chunkCount, ∀ o < sfsBlockSize,
        mem (blockCount * sfsBlockSize + i * sfsBlockSize + o)
          = blockByte chunk (chunkFirst + i) o) → ∀ i < blockCount, ∀ o < sfsBlockSize,
        process.apply 0 (blockCount * sfsBlockSize) mem (0 + i * sfsBlockSize + o)
          = partByte chunk cpt (firstBlock * sfsBlockSize + (i * sfsBlockSize + o))) :
    Recovers (planner.buildPlan.withProcessing (blockCount * sfsBlockSize) process) cpt
      firstBlock blockCount := by
  obtain ⟨⟨disjoint, inside⟩, finishes⟩ := chosen.separate_and_finished
  refine ⟨⟨disjoint, inside⟩, fun entry => chosen.starts early, finishes,
    fun chunk done mem stored complete => ?_⟩
  rw [ReadPlan.readOffset_withProcessing, add_comm] at stored
  obtain ⟨-, blocks⟩ := chosen.block someChunk stored.of_withProcessing complete
  rw [ReadPlan.postProcessData_withProcessing, Nat.zero_add]
  have size : 0 < blockCount * sfsBlockSize := Nat.mul_pos some sfsBlockSize_pos
  refine ⟨if_pos size, fun a bound => ?_⟩
  have block : a / sfsBlockSize < blockCount := (div_lt_iff_lt_mul sfsBlockSize_pos).mpr bound
  have value := computes chunk _ blocks _ block _ (mod_lt a sfsBlockSize_pos)
  unfold Processed.next
  rw [ReadPlan.address_postProcessData, Nat.sub_self]
  rwa [Nat.zero_add, Nat.div_add_mod'] at value

/-- The blocks of a data part are picked from the stripes of the chunk. -/
theorem recovers_partBlocks (h : cpt.Valid) (data : cpt.isDataPart = true) (some : 0 < blockCount)
    (early : firstBlock < cpt.getNumberOfBlocks) (chosen : planner.Chosen
      (cpt.getDataPartIndex + firstBlock * cpt.sliceType.getNumberOfDataParts)
      (1 + (blockCount - 1) * cpt.sliceType.getNumberOfDataParts)) :
    Recovers (planner.buildPlan.withProcessing (blockCount * sfsBlockSize)
      (.partBlocks blockCount cpt.sliceType.getNumberOfDataParts)) cpt firstBlock blockCount := by
  set k := cpt.sliceType.getNumberOfDataParts with kEq
  refine recovers_processed chosen (dataBlock_lt h data early) (by omega) some
    fun chunk mem blocks i inside o place => ?_
  have position : i * k < 1 + (blockCount - 1) * k := by
    have := mul_le_mul_right k (show i ≤ blockCount - 1 by omega)
    omega
  have source : blockCount * sfsBlockSize + i * (k * sfsBlockSize) + o
      = blockCount * sfsBlockSize + i * k * sfsBlockSize + o := by
    ring
  rw [PostProcess.apply_partBlocks mem (by omega) inside place, source, blocks _ position o place,
    partByte_of_isDataPart chunk data, dataByte_range chunk k _ _ _ place]
  congr 1
  omega

/-- Where the blocks of a stripe were read to. -/
theorem stripeBlock {k : ℕ} {chunk : Content} {mem : Memory} {src : ℕ}
    (blocks : ∀ i < blockCount * k, ∀ o < sfsBlockSize,
      mem (src + i * sfsBlockSize + o) = blockByte chunk (firstBlock * k + i) o)
    {i j o : ℕ} (lt : i < blockCount) (small : j < k) (place : o < sfsBlockSize) :
    mem (src + i * (k * sfsBlockSize) + j * sfsBlockSize + o) =
      dataByte chunk k j (firstBlock * sfsBlockSize + (i * sfsBlockSize + o)) := by
  have position : i * k + j < blockCount * k := by
    have := mul_le_mul_right k (succ_le_of_lt lt)
    rw [succ_mul] at this
    omega
  have source : src + i * (k * sfsBlockSize) + j * sfsBlockSize + o
      = src + (i * k + j) * sfsBlockSize + o := by
    ring
  rw [source, blocks _ position o place, dataByte_range chunk k j _ _ place, add_assoc]

section Parity

variable (some : 0 < blockCount) (early : firstBlock < cpt.getNumberOfBlocks)
  (chosen : planner.Chosen (firstBlock * cpt.sliceType.getNumberOfDataParts)
    (blockCount * cpt.sliceType.getNumberOfDataParts))
include some early chosen

/-- The parity of an xor slice is added up from the stripes of the chunk. -/
theorem recovers_xorParity (xor : cpt.sliceType.isXor = true) (parity : cpt.slicePart = 0) :
    Recovers (planner.buildPlan.withProcessing (blockCount * sfsBlockSize)
      (.xorParity cpt.sliceType.getNumberOfDataParts blockCount)) cpt firstBlock blockCount := by
  have pos := SliceType.dataParts_pos cpt.sliceType
  refine recovers_processed chosen (stripe_lt early) (Nat.mul_pos some pos) some
    fun chunk mem blocks i inside o place => ?_
  have part : cpt = ⟨cpt.sliceType, 0⟩ := by rw [← parity]
  rw [PostProcess.apply_xorParity mem (by omega) inside place pos, part,
    partByte_xor_zero chunk xor]
  exact Finset.sum_congr rfl fun j member =>
    stripeBlock blocks inside (Finset.mem_range.mp member) place

/-- A parity part of an erasure coded slice is encoded from the stripes of the chunk. -/
theorem recovers_ecParity (h : cpt.Valid) (ec : cpt.sliceType.isEC = true)
    (parity : cpt.sliceType.getNumberOfDataParts ≤ cpt.slicePart) :
    Recovers (planner.buildPlan.withProcessing (blockCount * sfsBlockSize)
      (.ecParity cpt.sliceType.getNumberOfDataParts cpt.sliceType.getNumberOfParityParts
        cpt.getParityPartIndex blockCount)) cpt firstBlock blockCount := by
  obtain ⟨fewData, -, few⟩ := SliceType.ec_bounds ec
  have bound := h.part
  rw [SliceType.expectedParts_eq h.type] at bound
  have index : cpt.sliceType.getNumberOfDataParts + cpt.getParityPartIndex = cpt.slicePart := by
    rw [ChunkPartType.getParityPartIndex, if_pos ec, Nat.add_sub_cancel' parity]
  have width := ReedSolomon.length_row (generator_createRSMatrix fewData few) bound
  refine recovers_processed chosen (stripe_lt early)
    (Nat.mul_pos some (SliceType.dataParts_pos _)) some
    fun chunk mem blocks i inside o place => ?_
  rw [PostProcess.apply_ecParity mem (by omega) inside place fewData few (by omega), index]
  refine Eq.trans (GaussJordan.dot_congr fun j within => ?_)
    (partByte_of_isEC chunk ec cpt.slicePart _).symm
  exact stripeBlock blocks inside (width ▸ within) place

end Parity

/-! ## The plans of the planner -/

/-- Which slice types have enough different parts available to recover the chunk. -/
def Enough (available : List ChunkPartType) (type : SliceType) : Prop :=
  type.getNumberOfDataParts ≤ (available.toFinset.filter (·.sliceType = type)).card

theorem Enough.length {type : SliceType} (h : Enough available type) :
    type.getNumberOfDataParts ≤ (partsToUse type available).length := by
  have eq : (partsToUse type available).toFinset
      = available.toFinset.filter (·.sliceType = type) := by
    ext cpt
    simp [mem_partsToUse]
  rwa [← toFinset_card_of_nodup (nodup_partsToUse type available), eq]

/-- When some type has enough parts, one of the three ways is possible. -/
theorem possible_of_enough (planner : SliceRecoveryPlanner) (cpt : ChunkPartType)
    (firstBlock blockCount : ℕ) {type : SliceType} (h : Enough available type) :
    (planner.prepare cpt firstBlock blockCount available).isReadingPossible = true := by
  have possible := fun first count => planner.chunkPlanner.possible_prepare first count h.length
  unfold prepare
  dsimp only
  split
  · rfl
  · split
    · rw [if_pos (possible _ _)]
    · rw [if_pos (possible _ _)]

/-- The plan for a part brings back its blocks, and it is possible whenever some type has
enough parts. -/
theorem buildPlan_recovers (planner : SliceRecoveryPlanner) (valid : cpt.Valid)
    (some : 0 < blockCount) (inside : firstBlock + blockCount ≤ cpt.getNumberOfBlocks)
    (validParts : ∀ part ∈ available, part.Valid) :
    ((planner.prepare cpt firstBlock blockCount available).isReadingPossible = true →
        Recovers (planner.prepare cpt firstBlock blockCount available).buildPlan cpt firstBlock
          blockCount) ∧
      ((∃ type, Enough available type) →
        (planner.prepare cpt firstBlock blockCount available).isReadingPossible = true) := by
  refine ⟨fun possible => ?_, fun ⟨type, enough⟩ =>
    planner.possible_of_enough cpt firstBlock blockCount enough⟩
  have early : firstBlock < cpt.getNumberOfBlocks := by omega
  unfold prepare at possible ⊢
  dsimp only at possible ⊢
  split at possible
  case isTrue canRead =>
    rw [if_pos canRead]
    refine recovers_read (planner.slicePlanner.ready_prepare valid.type ?_
      (nodup_singleton _) validParts canRead) rfl rfl early
    intro part member
    rw [mem_singleton.mp member]
    exact valid
  case isFalse cannot =>
    rw [if_neg cannot]
    split at possible
    case isTrue data =>
      rw [if_pos data]
      split at possible
      case isTrue found =>
        rw [if_pos found]
        exact recovers_partBlocks valid data some early
          (ChunkReadPlanner.chosen_prepare validParts found)
      case isFalse => exact Bool.noConfusion possible
    case isFalse parity =>
      rw [if_neg parity]
      split at possible
      case isTrue found =>
        rw [if_pos found]
        have chosen := ChunkReadPlanner.chosen_prepare validParts found
        have isParity : cpt.isParityPart = true := by simpa [ChunkPartType.isDataPart] using parity
        unfold ChunkPartType.isParityPart at isParity
        unfold buildPlan
        dsimp only
        split at isParity
        case isTrue xor =>
          rw [if_pos xor]
          exact recovers_xorParity some early chosen xor (of_decide_eq_true isParity)
        case isFalse notXor =>
          rw [if_neg notXor]
          split at isParity
          case isTrue ec =>
            rw [if_pos ec]
            exact recovers_ecParity some early chosen valid ec (of_decide_eq_true isParity)
          case isFalse => exact Bool.noConfusion isParity
      case isFalse => exact Bool.noConfusion possible

/-- The parity of two xored parts, from a whole copy of the chunk. -/
theorem buildPlan_recovers_xorFromStandard :
    Recovers ((new fun _ => none).prepare ⟨2, 0⟩ 3 5 [⟨SliceType.kStandard, 0⟩]).buildPlan ⟨2, 0⟩
      3 5 := by
  have both := buildPlan_recovers (new fun _ => none)
    (show (⟨2, 0⟩ : ChunkPartType).Valid from ⟨by decide, by decide⟩) (show 0 < 5 by decide)
    (show 3 + 5 ≤ (⟨2, 0⟩ : ChunkPartType).getNumberOfBlocks by decide)
    (show ∀ part ∈ [(⟨SliceType.kStandard, 0⟩ : ChunkPartType)], part.Valid from
      fun part member => by
      rw [mem_singleton.mp member]
      exact ⟨by decide, by decide⟩)
  exact both.1 (both.2 ⟨SliceType.kStandard, by unfold Enough; decide⟩)

end SliceRecoveryPlanner

end LeilFS.Reading
