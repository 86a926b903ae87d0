/-
Module: LeilFS.Reading.ChunkPlanner
Purpose: Planning to read a range of blocks of a chunk from whatever parts there are, and that
  what comes out is the chunk.
Trusted boundary: none
-/
import LeilFS.Reading.PostProcess
import LeilFS.Reading.SlicePlanner

namespace LeilFS.Reading

open SliceReadPlanner Nat List LeilFS.Chunks LeilFS.Erasure
open PostProcess (partOf)
open SliceType (kStandard dataParts_pos kECLast)
open FlatMemory (Outside)
open ReadPlan (Laid Stored)

/-! ## The planner -/

/-- The planner with what it was last prepared for. -/
structure ChunkReadPlanner where
  readPlanner : SliceReadPlanner
  isReadingPossible : Bool
  readFromType : SliceType
  readParts : List ℕ
  partFirstBlock : ℕ
  partBlockCount : ℕ
  chunkFirstBlock : ℕ
  chunkBlockCount : ℕ

namespace ChunkReadPlanner

/-- A planner that is not prepared for anything. -/
def new (overuse : ℕ → ℕ) (scores : ChunkPartType → Option ℚ) : ChunkReadPlanner :=
  ⟨SliceReadPlanner.new overuse scores, false, kStandard, [], 0, 0, 0, 0⟩

/-- The types of the available parts, each once and in their order
[SPEC chunk_read_planner.h:167-176]. -/
def getTypeList (available : List ChunkPartType) : List SliceType :=
  available.foldl (fun result part =>
    if part.sliceType ∈ result then result else result ++ [part.sliceType]) []

/-- The data parts of an xor slice have numbers from one. -/
def firstDataPart (type : SliceType) : ℕ :=
  if type.isXor then 1 else 0

/-- The parts that hold the blocks of a range; when it runs over the end of a stripe they
begin in the middle [SPEC chunk_read_planner.h:185-209]. -/
def getRequiredParts (type : SliceType) (firstBlock blockCount : ℕ) : List ℕ :=
  let dataPartCount := type.getNumberOfDataParts
  let firstPart := firstBlock % dataPartCount
  let lastPart := (firstBlock + blockCount - 1) % dataPartCount
  if dataPartCount ≤ blockCount then List.range' (firstDataPart type) dataPartCount
  else if firstPart ≤ lastPart then
    List.range' (firstPart + firstDataPart type) (lastPart - firstPart + 1)
  else
    List.range' (firstPart + firstDataPart type) (dataPartCount - firstPart) ++
      List.range' (firstDataPart type) (lastPart + 1)

/-- The types are tried in their order. -/
def scan (firstBlock blockCount : ℕ) (available : List ChunkPartType) :
    List SliceType → ChunkReadPlanner → ChunkReadPlanner
  | [], planner => { planner with isReadingPossible := false }
  | type :: rest, planner =>
      let readParts := getRequiredParts type firstBlock blockCount
      let readPlanner := planner.readPlanner.prepare type readParts available
      if readPlanner.canRead then
        let dataParts := type.getNumberOfDataParts
        let partFirstBlock := firstBlock / dataParts
        { readPlanner := readPlanner
          isReadingPossible := true
          readFromType := type
          readParts := readParts
          partFirstBlock := partFirstBlock
          partBlockCount := (firstBlock + blockCount - 1) / dataParts - partFirstBlock + 1
          chunkFirstBlock := firstBlock
          chunkBlockCount := blockCount }
      else
        scan firstBlock blockCount available rest
          { planner with readPlanner := readPlanner, readParts := readParts }

/-- [SPEC chunk_read_planner.h:89-117] -/
def prepare (planner : ChunkReadPlanner) (firstBlock blockCount : ℕ)
    (available : List ChunkPartType) : ChunkReadPlanner :=
  scan firstBlock blockCount available (getTypeList available) planner

/-- [SPEC chunk_read_planner.h:140-165] -/
def buildPlan (planner : ChunkReadPlanner) : ReadPlan :=
  let plan := planner.readPlanner.buildPlanFor planner.partFirstBlock planner.partBlockCount true
  if planner.readFromType = kStandard then plan
  else
    let firstRequiredPart :=
      if planner.readFromType.isXor then planner.readParts.headD 0 - 1
      else planner.readParts.headD 0
    plan.withProcessing (planner.chunkBlockCount * sfsBlockSize)
      (.chunkBlocks planner.chunkFirstBlock planner.chunkBlockCount planner.partFirstBlock
        planner.partBlockCount firstRequiredPart planner.readFromType.getNumberOfDataParts)

/-! ## The parts of a range -/

section Parts

variable {type : SliceType}

theorem mod_add_of_lt {k i : ℕ} (lt : i < k) (firstBlock : ℕ) : (firstBlock + i) % k =
      if firstBlock % k + i < k then firstBlock % k + i else firstBlock % k + i - k := by
  rw [add_mod_eq_ite, mod_eq_of_lt lt]
  split <;> split <;> omega

/-- A required part is a data part, and every one is there once. -/
theorem requiredParts_spec (type : SliceType) (firstBlock blockCount : ℕ) :
    (∀ part ∈ getRequiredParts type firstBlock blockCount,
      ∃ r < type.getNumberOfDataParts, part = r + firstDataPart type) ∧
      (getRequiredParts type firstBlock blockCount).Nodup ∧
      getRequiredParts type firstBlock blockCount ≠ [] := by
  have pos := dataParts_pos type
  have lastSmall := mod_lt (firstBlock + blockCount - 1) pos
  unfold getRequiredParts
  dsimp only
  split
  · refine ⟨fun part mem => ?_, nodup_range', fun empty => ?_⟩
    · obtain ⟨r, small, rfl⟩ := mem_range'.mp mem
      exact ⟨r, small, by omega⟩
    · have := congrArg length empty
      rw [length_range', length_nil] at this
      omega
  split
  · refine ⟨fun part mem => ?_, nodup_range', fun empty => ?_⟩
    · obtain ⟨r, small, rfl⟩ := mem_range'.mp mem
      exact ⟨firstBlock % type.getNumberOfDataParts + r, by omega, by omega⟩
    · exact absurd (congrArg length empty) (by simp)
  refine ⟨fun part mem => ?_, ?_, fun empty => ?_⟩
  · rcases mem_append.mp mem with prev | after
    · obtain ⟨r, small, rfl⟩ := mem_range'.mp prev
      exact ⟨firstBlock % type.getNumberOfDataParts + r, by omega, by omega⟩
    · obtain ⟨r, small, rfl⟩ := mem_range'.mp after
      exact ⟨r, by omega, by omega⟩
  · refine nodup_append.mpr ⟨nodup_range', nodup_range', ?_⟩
    intro first prev second after
    obtain ⟨r, small, rfl⟩ := mem_range'.mp prev
    obtain ⟨l, fewer, rfl⟩ := mem_range'.mp after
    omega
  · exact absurd (congrArg length empty) (by simp)

/-- Where the converter looks for a block of the range, there is the part that holds it. -/
theorem requiredParts_partOf (type : SliceType) (firstBlock : ℕ) {blockCount i : ℕ}
    (lt : i < blockCount) : partOf
        ((getRequiredParts type firstBlock blockCount).headD 0 - firstDataPart type)
        type.getNumberOfDataParts (firstBlock + i)
      < (getRequiredParts type firstBlock blockCount).length ∧
    (getRequiredParts type firstBlock blockCount).getD (partOf
          ((getRequiredParts type firstBlock blockCount).headD 0 - firstDataPart type)
          type.getNumberOfDataParts (firstBlock + i)) 0
      = (firstBlock + i) % type.getNumberOfDataParts + firstDataPart type := by
  have pos := dataParts_pos type
  unfold getRequiredParts
  dsimp only
  generalize type.getNumberOfDataParts = k at pos ⊢
  have firstSmall := mod_lt firstBlock pos
  have small := mod_lt (firstBlock + i) pos
  split
  case isTrue many =>
    -- a whole stripe, in order
    have front : (range' (firstDataPart type) k).headD 0 = firstDataPart type := by
      rw [headD_eq_head?_getD, head?_range', if_neg (by omega)]
      rfl
    rw [front, Nat.sub_self, partOf, if_neg (Nat.not_lt_zero _), Nat.sub_zero, length_range']
    rw [getD_eq_getElem?_getD, getElem?_range' small, Option.getD_some]
    omega
  case isFalse few =>
    have wrap := mod_add_of_lt (show i < k by omega) firstBlock
    have last := mod_add_of_lt (show blockCount - 1 < k by omega) firstBlock
    rw [← Nat.add_sub_assoc (by omega)] at last
    split
    case isTrue ordered =>
      have within : firstBlock % k + (blockCount - 1) < k := by
        by_contra past
        rw [if_neg past] at last
        omega
      rw [if_pos within] at last
      rw [if_pos (by omega)] at wrap
      have front : (range' (firstBlock % k + firstDataPart type)
          ((firstBlock + blockCount - 1) % k - firstBlock % k + 1)).headD 0
            = firstBlock % k + firstDataPart type := by
        rw [headD_eq_head?_getD, head?_range']
        rfl
      have at_i : partOf (firstBlock % k) k (firstBlock + i) = i := by
        rw [partOf, if_neg (by omega)]
        omega
      rw [front, Nat.add_sub_cancel, length_range']
      rw [getD_eq_getElem?_getD, getElem?_range' (by omega), Option.getD_some]
      omega
    case isFalse wrapped =>
      have past : ¬ firstBlock % k + (blockCount - 1) < k := by
        intro within
        rw [if_pos within] at last
        omega
      rw [if_neg past] at last
      have front : (range' (firstBlock % k + firstDataPart type) (k - firstBlock % k) ++
          range' (firstDataPart type) ((firstBlock + blockCount - 1) % k + 1)).headD 0
            = firstBlock % k + firstDataPart type := by
        rw [headD_eq_head?_getD, head?_append, head?_range', if_neg (by omega)]
        rfl
      have at_i : partOf (firstBlock % k) k (firstBlock + i) = i := by
        rw [partOf]
        split at wrap
        · rw [if_neg (by omega)]
          omega
        · rw [if_pos (by omega)]
          omega
      rw [front, Nat.add_sub_cancel, length_append, length_range', length_range']
      rw [getD_eq_getElem?_getD]
      split at wrap
      case isTrue prev =>
        rw [getElem?_append_left (by rw [length_range']; omega),
          getElem?_range' (by omega), Option.getD_some]
        omega
      case isFalse after =>
        rw [getElem?_append_right (by rw [length_range']; omega), length_range',
          getElem?_range' (by omega), Option.getD_some]
        omega

/-- A data part by the number that the planner gives it. -/
theorem dataPart_spec (le : type ≤ kECLast) {r : ℕ} (lt : r < type.getNumberOfDataParts) :
    (⟨type, r + firstDataPart type⟩ : ChunkPartType).Valid ∧
      (⟨type, r + firstDataPart type⟩ : ChunkPartType).isDataPart = true ∧
      (⟨type, r + firstDataPart type⟩ : ChunkPartType).getDataPartIndex = r := by
  have count := SliceType.expectedParts_eq le
  unfold firstDataPart ChunkPartType.isDataPart ChunkPartType.isParityPart
    ChunkPartType.getDataPartIndex
  dsimp only
  by_cases xor : type.isXor = true
  · rw [if_pos xor, if_pos xor, if_pos xor]
    rw [SliceType.getNumberOfParityParts, if_pos xor] at count
    exact ⟨⟨le, by dsimp only; omega⟩, by simp, by omega⟩
  rw [if_neg xor, if_neg xor, if_neg xor]
  refine ⟨⟨le, by dsimp only; omega⟩, ?_, rfl⟩
  split
  · simpa using lt
  · rfl

end Parts

/-! ## The chosen type -/

theorem mem_getTypeList {available : List ChunkPartType} {type : SliceType} :
    type ∈ getTypeList available ↔ ∃ cpt ∈ available, cpt.sliceType = type := by
  have along : ∀ result : List SliceType,
      type ∈ available.foldl (fun result part =>
        if part.sliceType ∈ result then result else result ++ [part.sliceType]) result ↔
        type ∈ result ∨ ∃ cpt ∈ available, cpt.sliceType = type := by
    induction available with
    | nil => simp
    | cons part rest ih =>
      intro result
      rw [foldl_cons, ih, exists_mem_cons_iff]
      split
      case isTrue known =>
        constructor
        · rintro (prev | later)
          · exact .inl prev
          · exact .inr (.inr later)
        · rintro (prev | rfl | later)
          · exact .inl prev
          · exact .inl known
          · exact .inr later
      case isFalse fresh => rw [mem_append, mem_singleton, eq_comm (a := type), or_assoc]
  exact (along []).trans (by simp)

/-- Prepared for a range, with all that the plan is built from. -/
structure Chosen (planner : ChunkReadPlanner) (firstBlock blockCount : ℕ) : Prop where
  ready : planner.readPlanner.Ready
  type : planner.readPlanner.sliceType = planner.readFromType
  requested : planner.readPlanner.sliceParts =
    getRequiredParts planner.readFromType firstBlock blockCount
  parts : planner.readParts = getRequiredParts planner.readFromType firstBlock blockCount
  partFirst : planner.partFirstBlock = firstBlock / planner.readFromType.getNumberOfDataParts
  partCount : planner.partBlockCount =
    (firstBlock + blockCount - 1) / planner.readFromType.getNumberOfDataParts -
      planner.partFirstBlock + 1
  first : planner.chunkFirstBlock = firstBlock
  count : planner.chunkBlockCount = blockCount

variable {planner : ChunkReadPlanner} {firstBlock blockCount : ℕ}
  {available : List ChunkPartType}

theorem chosen_scan (valid : ∀ cpt ∈ available, cpt.Valid) {types : List SliceType}
    (known : ∀ type ∈ types, type ≤ kECLast) (planner : ChunkReadPlanner)
    (possible : (scan firstBlock blockCount available types planner).isReadingPossible = true) :
    Chosen (scan firstBlock blockCount available types planner) firstBlock blockCount := by
  induction types generalizing planner with
  | nil => exact Bool.noConfusion possible
  | cons type rest ih =>
    have typeKnown := known type mem_cons_self
    unfold scan at possible ⊢
    dsimp only at possible ⊢
    split at possible
    case isTrue canRead =>
      rw [if_pos canRead]
      obtain ⟨data, distinct, -⟩ := requiredParts_spec type firstBlock blockCount
      refine ⟨planner.readPlanner.ready_prepare typeKnown (fun part mem => ?_) distinct valid
        canRead, rfl, rfl, rfl, rfl, rfl, rfl, rfl⟩
      obtain ⟨r, small, rfl⟩ := data part mem
      exact (dataPart_spec typeKnown small).1
    case isFalse cannot =>
      rw [if_neg cannot]
      exact ih (fun type mem => known type (mem_cons_of_mem _ mem)) _ possible

theorem chosen_prepare (valid : ∀ cpt ∈ available, cpt.Valid)
    (possible : (planner.prepare firstBlock blockCount available).isReadingPossible = true) :
    Chosen (planner.prepare firstBlock blockCount available) firstBlock blockCount := by
  refine chosen_scan valid (fun type mem => ?_) planner possible
  obtain ⟨cpt, there, rfl⟩ := mem_getTypeList.mp mem
  exact (valid cpt there).type

/-- When the parts of some type are enough to recover the chunk, a type is found. -/
theorem possible_prepare (planner : ChunkReadPlanner) (firstBlock blockCount : ℕ) {type : SliceType}
    (le : type.getNumberOfDataParts ≤ (partsToUse type available).length) :
    (planner.prepare firstBlock blockCount available).isReadingPossible = true := by
  have along : ∀ (types : List SliceType) (planner : ChunkReadPlanner), type ∈ types →
      (scan firstBlock blockCount available types planner).isReadingPossible = true := by
    intro types
    induction types with
    | nil => exact fun _ mem => absurd mem not_mem_nil
    | cons next rest ih =>
      intro planner mem
      unfold scan
      dsimp only
      split
      · rfl
      case isFalse cannot =>
        rcases mem_cons.mp mem with rfl | later
        · refine absurd ?_ cannot
          exact Bool.or_eq_true_iff.mpr (.inr (decide_eq_true le))
        · exact ih _ later
  refine along _ planner (mem_getTypeList.mpr ?_)
  obtain ⟨cpt, mem⟩ := exists_mem_of_length_pos ((dataParts_pos type).trans_le le)
  obtain ⟨there, typed⟩ := mem_partsToUse.mp mem
  exact ⟨cpt, there, typed⟩

/-! ## What the plan reads -/

namespace Chosen

variable {chunk : Content} {finished : List ChunkPartType} {mem : Memory} {buffer : ℕ}

/-- The plan before the blocks are put in order. -/
abbrev slicePlan (planner : ChunkReadPlanner) : ReadPlan :=
  planner.readPlanner.buildPlanFor planner.partFirstBlock planner.partBlockCount true

theorem built (chosen : Chosen planner firstBlock blockCount) :
    planner.readPlanner.Built planner.partFirstBlock planner.partBlockCount (slicePlan planner) ∧
      (slicePlan planner).isReadingFinished ((slicePlan planner).readOperations.map Prod.fst)
        = true :=
  built_buildPlanFor chosen.ready _ _ true

/-- After the recovery of lost parts, every block of the range is where the converter looks
for it. -/
theorem postProcessRead (chosen : Chosen planner firstBlock blockCount)
    (h : Stored (slicePlan planner) chunk buffer finished mem)
    (complete : (slicePlan planner).isReadingFinished finished = true) {i o : ℕ}
    (lt : i < blockCount) (place : o < sfsBlockSize) :
    (slicePlan planner).postProcessRead buffer mem finished (buffer +
        (partOf (planner.readParts.headD 0 - firstDataPart planner.readFromType)
            planner.readFromType.getNumberOfDataParts (firstBlock + i) * planner.partBlockCount +
          ((firstBlock + i) / planner.readFromType.getNumberOfDataParts -
            planner.partFirstBlock)) * sfsBlockSize + o) = blockByte chunk (firstBlock + i) o := by
  obtain ⟨⟨⟨typed, asked, -⟩, slot, slots, laid⟩, -⟩ := chosen.built
  rw [chosen.type] at typed
  have le : planner.readFromType ≤ kECLast := chosen.type ▸ chosen.ready.known
  obtain ⟨index, part⟩ := requiredParts_partOf planner.readFromType firstBlock lt
  rw [← chosen.parts] at index part
  set k := planner.readFromType.getNumberOfDataParts with kEq
  set p := partOf (planner.readParts.headD 0 - firstDataPart planner.readFromType) k
    (firstBlock + i)
  set block := (firstBlock + i) / k - planner.partFirstBlock with blockEq
  have pos : 0 < k := dataParts_pos _
  have small := mod_lt (firstBlock + i) pos
  -- the block is in the range of the parts
  have lower : planner.partFirstBlock ≤ (firstBlock + i) / k := by
    rw [chosen.partFirst]
    exact Nat.div_le_div_right (Nat.le_add_right _ _)
  have upper : block < planner.partBlockCount := by
    have : (firstBlock + i) / k ≤ (firstBlock + blockCount - 1) / k :=
      Nat.div_le_div_right (by omega)
    have count := chosen.partCount
    rw [← kEq] at count
    omega
  have within : block * sfsBlockSize + o < (slicePlan planner).bufferPartSize := by
    rw [laid.partSize]
    have := mul_le_mul_right sfsBlockSize upper
    rw [succ_mul] at this
    omega
  have parts : (slicePlan planner).requestedParts.map (·.part) = planner.readParts := by
    rw [asked, requested_map_part, chosen.requested, chosen.parts]
  have bound : p < (slicePlan planner).requestedParts.length := by
    rwa [← length_map (·.part), parts]
  have here : ((slicePlan planner).requestedParts.getD p ⟨0, 0⟩).part
      = (firstBlock + i) % k + firstDataPart planner.readFromType := by
    rw [← part, ← parts]
    simp [getElem?_eq_getElem bound]
  have value := ReadPlan.postProcessRead_requested h laid (typed ▸ le) complete bound within
  rw [here, typed] at value
  obtain ⟨-, isData, dataIndex⟩ := dataPart_spec le small
  rw [partByte_of_isDataPart chunk isData, dataIndex, dataByte] at value
  have address : buffer + (p * planner.partBlockCount + block) * sfsBlockSize + o
      = buffer + p * (slicePlan planner).bufferPartSize + (block * sfsBlockSize + o) := by
    rw [laid.partSize]
    ring
  have offset : planner.partFirstBlock * sfsBlockSize + (block * sfsBlockSize + o)
      = (firstBlock + i) / k * sfsBlockSize + o := by
    rw [← Nat.add_assoc, ← Nat.add_mul, Nat.add_sub_cancel' lower]
  have quotient : ((firstBlock + i) / k * sfsBlockSize + o) / sfsBlockSize
      = (firstBlock + i) / k := by
    rw [add_comm, add_mul_div_right _ _ sfsBlockSize_pos, div_eq_of_lt place, Nat.zero_add]
  have remainder : ((firstBlock + i) / k * sfsBlockSize + o) % sfsBlockSize = o := by
    rw [add_comm, add_mul_mod_self_right, mod_eq_of_lt place]
  rw [address, value, offset, quotient, remainder, mul_comm _ k, div_add_mod]

/-- A standard chunk is one part, read as it is. -/
theorem standard (chosen : Chosen planner firstBlock blockCount) (some : 0 < blockCount)
    (eq : planner.readFromType = kStandard) :
    planner.readParts = [0] ∧ planner.partFirstBlock = firstBlock ∧
      planner.partBlockCount = blockCount := by
  have one : kStandard.getNumberOfDataParts = 1 := by decide
  have parts := chosen.parts
  have first := chosen.partFirst
  have count := chosen.partCount
  rw [eq, one, Nat.div_one] at first
  rw [eq, one, Nat.div_one] at count
  rw [eq, getRequiredParts, one, if_pos (show 1 ≤ blockCount from some)] at parts
  exact ⟨parts, first, by omega⟩

theorem firstRequiredPart (planner : ChunkReadPlanner) :
    (if planner.readFromType.isXor then planner.readParts.headD 0 - 1
      else planner.readParts.headD 0) =
      planner.readParts.headD 0 - firstDataPart planner.readFromType := by
  unfold firstDataPart
  split <;> rfl

section

variable (chosen : Chosen planner firstBlock blockCount)
include chosen

/-- The plan is the plan of the slice, with the converter behind it unless there is nothing to
put in order. -/
theorem buildPlan_eq : planner.buildPlan =
      if planner.readFromType = kStandard then slicePlan planner
      else (slicePlan planner).withProcessing (blockCount * sfsBlockSize)
        (.chunkBlocks firstBlock blockCount planner.partFirstBlock planner.partBlockCount
          (planner.readParts.headD 0 - firstDataPart planner.readFromType)
          planner.readFromType.getNumberOfDataParts) := by
  unfold buildPlan
  rw [firstRequiredPart, chosen.first, chosen.count]

/-- The blocks of the range come out in order, with zeros beyond the end of the chunk. -/
theorem block (some : 0 < blockCount)
    (h : Stored planner.buildPlan chunk (buffer + planner.buildPlan.readOffset) finished mem)
    (complete : planner.buildPlan.isReadingFinished finished = true) :
    (planner.buildPlan.postProcessData buffer mem finished).size = blockCount * sfsBlockSize ∧
      ∀ i < blockCount, ∀ o < sfsBlockSize,
        (planner.buildPlan.postProcessData buffer mem finished).memory
          (buffer + i * sfsBlockSize + o) = blockByte chunk (firstBlock + i) o := by
  obtain ⟨⟨⟨-, asked, none⟩, slot, slots, laid⟩, -⟩ := chosen.built
  have plan_eq := chosen.buildPlan_eq
  by_cases eq : planner.readFromType = kStandard
  · rw [if_pos eq] at plan_eq
    rw [plan_eq] at h complete ⊢
    obtain ⟨parts, first, count⟩ := chosen.standard some eq
    have noOffset : (slicePlan planner).readOffset = 0 := by simp [ReadPlan.readOffset, none]
    rw [noOffset] at h
    rw [ReadPlan.postProcessData_of_none none]
    refine ⟨?_, fun i inside o place => ?_⟩
    · rw [laid.partSize, asked, length_requested, chosen.requested,
        ← chosen.parts, parts, count, length_singleton, one_mul]
    · have value := chosen.postProcessRead h complete inside place
      have one : kStandard.getNumberOfDataParts = 1 := by decide
      have origin : partOf (0 - firstDataPart kStandard) 1 (firstBlock + i)
          = 0 := by
        rw [Nat.zero_sub, partOf, Nat.mod_one, if_neg (Nat.lt_irrefl 0)]
      rw [eq, parts, one, first, Nat.div_one, Nat.add_sub_cancel_left, headD_cons, origin,
        Nat.zero_mul, Nat.zero_add] at value
      exact value
  · rw [if_neg eq] at plan_eq
    rw [plan_eq] at h complete ⊢
    have ahead : buffer + ((slicePlan planner).readOffset + blockCount * sfsBlockSize)
        = buffer + blockCount * sfsBlockSize := by
      simp [ReadPlan.readOffset, none]
    rw [ReadPlan.readOffset_withProcessing, ahead] at h
    rw [ReadPlan.postProcessData_withProcessing, ReadPlan.postProcessData_of_none none]
    have size : 0 < blockCount * sfsBlockSize := mul_pos some sfsBlockSize_pos
    refine ⟨if_pos size, fun i inside o place => ?_⟩
    unfold Processed.next
    dsimp only
    rw [Nat.add_sub_cancel, PostProcess.apply_chunkBlocks _ le_rfl inside place]
    exact chosen.postProcessRead h.of_withProcessing complete inside place

/-- No operation begins beyond the end of its part. -/
theorem starts (early : firstBlock < sfsBlocksInChunk) {entry : ChunkPartType × ReadOperation}
    (mem : entry ∈ planner.buildPlan.readOperations) :
    entry.2.requestOffset ≤ entry.1.getNumberOfBlocks * sfsBlockSize := by
  obtain ⟨⟨⟨typed, -, -⟩, slot, slots, laid⟩, -⟩ := chosen.built
  have eq : planner.buildPlan.readOperations = (slicePlan planner).readOperations := by
    rw [chosen.buildPlan_eq]
    split <;> rfl
  refine laid.starts ?_ (eq ▸ mem)
  rw [typed, chosen.type, chosen.partFirst]
  exact Nat.div_le_div_right early.le

/-- The regions of the plan do not meet, and reading all of its parts finishes it. -/
theorem separate_and_finished : planner.buildPlan.Separate ∧
      planner.buildPlan.isReadingFinished (planner.buildPlan.readOperations.map Prod.fst)
        = true := by
  obtain ⟨⟨-, slot, slots, laid⟩, finished⟩ := chosen.built
  obtain ⟨disjoint, inside⟩ := laid.separate
  rw [chosen.buildPlan_eq]
  split
  · exact ⟨⟨disjoint, inside⟩, finished⟩
  · exact ⟨⟨disjoint, inside⟩, finished⟩

end

end Chosen

/-- A range of blocks inside the chunk is read. Whatever parts there are and whichever of them
finish, as soon as the plan counts as finished the buffer begins with the blocks of the
range. -/
theorem postProcessData_eq_chunk (planner : ChunkReadPlanner) (some : 0 < blockCount)
    (inside : firstBlock + blockCount ≤ sfsBlocksInChunk)
    (valid : ∀ cpt ∈ available, cpt.Valid)
    (possible : (planner.prepare firstBlock blockCount available).isReadingPossible = true) :
    (planner.prepare firstBlock blockCount available).buildPlan.Separate ∧
      ∀ (chunk : Content) (finished : List ChunkPartType) (mem : Memory),
        Stored (planner.prepare firstBlock blockCount available).buildPlan chunk
          (planner.prepare firstBlock blockCount available).buildPlan.readOffset finished mem →
        (planner.prepare firstBlock blockCount available).buildPlan.isReadingFinished finished
          = true →
        ((planner.prepare firstBlock blockCount available).buildPlan.postProcessData 0 mem
            finished).size = blockCount * sfsBlockSize ∧
          ∀ a < blockCount * sfsBlockSize,
            ((planner.prepare firstBlock blockCount available).buildPlan.postProcessData 0 mem
              finished).memory a = chunk (firstBlock * sfsBlockSize + a) := by
  have chosen : Chosen _ firstBlock blockCount := chosen_prepare valid possible
  refine ⟨chosen.separate_and_finished.1, fun chunk finished mem stored complete => ?_⟩
  rw [← Nat.zero_add (ReadPlan.readOffset _)] at stored
  obtain ⟨size, blocks⟩ := chosen.block some stored complete
  refine ⟨size, fun a bound => ?_⟩
  have block : a / sfsBlockSize < blockCount := (div_lt_iff_lt_mul sfsBlockSize_pos).mpr bound
  have value := blocks _ block _ (mod_lt a sfsBlockSize_pos)
  have within : firstBlock + a / sfsBlockSize < sfsBlocksInChunk := by omega
  rw [Nat.zero_add, blockByte, if_pos within, Nat.add_mul, Nat.add_assoc,
    div_add_mod'] at value
  exact value

/-! A chunk of ones in two xored parts, of which the first data part is lost. -/

/-- The planner for the first two blocks, with the parts to use as they come out of sorting. -/
def lostFirst (parts : List ChunkPartType) : ChunkReadPlanner :=
  ⟨⟨fun n => n, fun _ => none, 2, [1, 2], parts, false, true⟩, true, 2, [1, 2], 0, 1, 0, 2⟩

theorem buildPlan_lostFirst :
    ((new (fun n => n) fun _ => none).prepare 0 2 [⟨2, 0⟩, ⟨2, 2⟩]).buildPlan =
      { sliceType := 2
        requestedParts := [⟨1, sfsBlockSize⟩, ⟨2, sfsBlockSize⟩]
        bufferPartSize := sfsBlockSize
        readOperations :=
          [(⟨2, 0⟩, ⟨0, sfsBlockSize, 2 * sfsBlockSize, 0⟩),
            (⟨2, 2⟩, ⟨0, sfsBlockSize, sfsBlockSize, 0⟩)]
        readBufferSize := 3 * sfsBlockSize
        postprocessOperations := [(2 * sfsBlockSize, .chunkBlocks 0 2 0 1 0 2)] } := by
  have prepared : (new (fun n => n) fun _ => none).prepare 0 2 [⟨2, 0⟩, ⟨2, 2⟩] =
      lostFirst ([(⟨2, 0⟩ : ChunkPartType), ⟨2, 2⟩].mergeSort fun _ _ => decide ((1 : ℚ) ≤ 1)) :=
    rfl
  rw [prepared, SliceReadPlanner.mergeSort_unscored]
  decide +kernel

/-- The ones of the second data part, in its place in the buffer. -/
def secondOnly : Memory :=
  fun a => if 3 * sfsBlockSize ≤ a ∧ a < 4 * sfsBlockSize then 1 else 0

theorem stored_lostFirst :
    Stored ((new (fun n => n) fun _ => none).prepare 0 2 [⟨2, 0⟩, ⟨2, 2⟩]).buildPlan (fun _ => 1)
      ((new (fun n => n) fun _ => none).prepare 0 2 [⟨2, 0⟩, ⟨2, 2⟩]).buildPlan.readOffset
      [⟨2, 0⟩, ⟨2, 2⟩] secondOnly := by
  have two : SliceType.getNumberOfDataParts 2 = 2 := by decide
  have ones {i a : ℕ} (early : i < 2) (lt : a < sfsBlockSize) :
      dataByte (fun _ => 1) 2 i (0 + a) = 1 := by
    rw [dataByte, blockByte, Nat.zero_add, div_eq_of_lt lt, if_pos]
    unfold sfsBlocksInChunk
    omega
  have offset : ReadPlan.readOffset _ = 2 * sfsBlockSize + 0 :=
    congrArg (fun plan => (plan.postprocessOperations.map Prod.fst).sum) buildPlan_lostFirst
  rw [offset, buildPlan_lostFirst]
  refine ⟨by decide, by decide, fun entry mem _ a lt => ?_, fun a bound outside => ?_⟩
  · simp only [mem_cons, not_mem_nil, or_false] at mem
    rcases mem with rfl | rfl
    · rw [partByte_xor_zero _ (by decide), two, Finset.sum_range_succ, Finset.sum_range_one,
        ones two_pos lt, ones one_lt_two lt]
      exact if_neg (by dsimp only at lt ⊢; omega)
    · rw [partByte_xor_succ _ (by decide) 1, two, ones one_lt_two lt]
      exact if_pos (by dsimp only at lt ⊢; omega)
  · have away := outside _ (mem_cons_of_mem _ (mem_singleton.mpr rfl))
    refine if_neg ?_
    rcases away with prev | after
    · dsimp only at prev
      omega
    · dsimp only at after
      omega

theorem postProcessData_eq_chunk_lostFirst :
    (((new (fun n => n) fun _ => none).prepare 0 2 [⟨2, 0⟩, ⟨2, 2⟩]).buildPlan.postProcessData 0
      secondOnly [⟨2, 0⟩, ⟨2, 2⟩]).memory 5 = 1 :=
  ((postProcessData_eq_chunk (new (fun n => n) fun _ => none) (by decide) (by decide)
    (forall_mem_cons.mpr ⟨⟨by decide, by decide⟩,
      forall_mem_singleton.mpr ⟨by decide, by decide⟩⟩)
    (by decide)).2 _ _ _ stored_lostFirst (by rw [buildPlan_lostFirst]; decide)).2 5 (by decide)

end ChunkReadPlanner

end LeilFS.Reading
