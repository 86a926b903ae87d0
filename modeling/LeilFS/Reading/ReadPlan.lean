/-
Module: LeilFS.Reading.ReadPlan
Purpose: Plans to read parts of a slice into a buffer, and the processing that brings back the
  requested parts that were not read.
Trusted boundary: none
-/
import LeilFS.Reading.Parts
import LeilFS.Lib.FlatMemory
import LeilFS.Lib.KeyedList

namespace LeilFS.Reading

open Nat FlatMemory List LeilFS.Chunks LeilFS.Erasure ReedSolomon SliceType
open FlatMemory (overwrite Outside)
open GaussJordan (dot)

/-! ## Plans -/

/-- The bytes of the buffer, by address. -/
abbrev Memory := ℕ → GF256

/-- [SPEC read_plan.h:59-64] -/
structure ReadOperation where
  requestOffset : ℕ
  requestSize : ℕ
  bufferOffset : ℕ
  wave : ℕ
deriving Repr, DecidableEq

/-- [SPEC slice_read_plan.h:37-41] -/
structure RequestedPartInfo where
  part : ℕ
  size : ℕ
deriving Repr, DecidableEq

/-- The functions that process a buffer further, with the data they hold: those that put
blocks of data parts in the order of the chunk, that pick the blocks of a part from the chunk,
and that compute a parity part from the chunk. -/
inductive PostProcess where
  | chunkBlocks (chunkFirstBlock chunkBlockCount partFirstBlock partBlockCount
      firstRequiredPart dataPartCount : ℕ)
  | partBlocks (partBlockCount dataPartCount : ℕ)
  | xorParity (dataPartCount partBlockCount : ℕ)
  | ecParity (dataPartCount parityPartCount parityPartIndex partBlockCount : ℕ)
deriving Repr, DecidableEq

/-- A plan for a slice; the type of the slice decides how lost parts are recovered. -/
structure ReadPlan where
  sliceType : SliceType
  requestedParts : List RequestedPartInfo
  bufferPartSize : ℕ
  readOperations : List (ChunkPartType × ReadOperation)
  readBufferSize : ℕ
  postprocessOperations : List (ℕ × PostProcess)
deriving Repr, DecidableEq

/-- Whether a part is among some parts of a slice. -/
def hasPart (available : List ChunkPartType) (part : ℕ) : Bool :=
  available.any (·.slicePart = part)

namespace ReadPlan

/-- The plan with one more read. -/
def withOperation (plan : ReadPlan) (cpt : ChunkPartType) (op : ReadOperation) : ReadPlan :=
  { plan with readOperations := plan.readOperations ++ [(cpt, op)] }

/-- The plan with a size of the read buffer. -/
def withBufferSize (plan : ReadPlan) (size : ℕ) : ReadPlan :=
  { plan with readBufferSize := size }

/-- [SPEC slice_read_plan.h:50-68] -/
def isReadingFinished (plan : ReadPlan) (available : List ChunkPartType) : Bool :=
  plan.sliceType.getNumberOfDataParts ≤ available.length ||
    plan.requestedParts.all fun info => hasPart available info.part

/-- The difference of two sizes, as `size_t` has it. -/
def sizeDifference (size other : ℕ) : ℕ :=
  if other ≤ size then size - other else 2 ^ 64 - (other - size)

/-- [SPEC slice_read_plan.h:73-91] -/
def isFinishingPossible (plan : ReadPlan) (unreadable : List ChunkPartType) : Bool :=
  plan.sliceType.getNumberOfDataParts
      ≤ sizeDifference plan.readOperations.length unreadable.length ||
    !plan.requestedParts.any fun info => hasPart unreadable info.part

/-! ## Processing the read buffer -/

/-- The requested parts are filled up with zeros [SPEC slice_read_plan.h:98-109]. -/
def alignParts (plan : ReadPlan) (buffer : ℕ) (mem : Memory) : Memory :=
  (List.range plan.requestedParts.length).foldl (fun mem i =>
    let size := (plan.requestedParts.getD i ⟨0, 0⟩).size
    overwrite mem (buffer + i * plan.bufferPartSize + size) (plan.bufferPartSize - size)
      fun _ => 0) mem

/-- The first part that was read replaces the missing one, with zeros behind it. -/
def copyFirst (buffer missingOffset missingSize : ℕ) (mem : Memory) (op : ReadOperation) : Memory :=
  let size := min op.requestSize missingSize
  overwrite
    (overwrite mem (buffer + missingOffset) size fun i => mem (buffer + op.bufferOffset + i))
    (buffer + missingOffset + size) (missingSize - size) fun _ => 0

/-- A further part is added to it. -/
def addNext (buffer missingOffset missingSize : ℕ) (mem : Memory) (op : ReadOperation) : Memory :=
  overwrite mem (buffer + missingOffset) (min op.requestSize missingSize) fun i =>
    mem (buffer + missingOffset + i) + mem (buffer + op.bufferOffset + i)

/-- The parts that were read are added up in the place of the missing one. -/
def addUp (buffer missingOffset missingSize : ℕ) (mem : Memory) : List ReadOperation → Memory
  | [] => mem
  | op :: rest =>
      rest.foldl (addNext buffer missingOffset missingSize)
        (copyFirst buffer missingOffset missingSize mem op)

/-- [SPEC xor_read_plan.h:79-128] -/
def recoverXor (plan : ReadPlan) (buffer : ℕ) (mem : Memory) (available : List ChunkPartType) :
    Memory :=
  match plan.requestedParts.findIdx? fun info => !hasPart available info.part with
  | none => mem
  | some i =>
      addUp buffer (i * plan.bufferPartSize) (plan.requestedParts.getD i ⟨0, 0⟩).size mem
        ((plan.readOperations.filter fun entry => hasPart available entry.1.slicePart).map
          Prod.snd)

/-- All but the first `k` available parts count as erased. -/
def erasedBy (k m : ℕ) (available : List ChunkPartType) : ErasedMap :=
  (Finset.range (k + m)).filter
    (· ∉ ((List.range (k + m)).filter (hasPart available)).take k)

/-- A region of the memory as a buffer. -/
def bytesAt (mem : Memory) (address size : ℕ) : List GF256 :=
  (List.range size).map fun a => mem (address + a)

/-- Recover missing parts using the Reed-Solomon decoder [SPEC ec_read_plan.h:117-149]. -/
def recoverParts (plan : ReadPlan) (buffer : ℕ) (mem : Memory)
    (available : List ChunkPartType) : Memory :=
  let k := plan.sliceType.getNumberOfDataParts
  let m := plan.sliceType.getNumberOfParityParts
  let dataParts : FragmentMap := fun i =>
    (plan.readOperations.find? fun entry => entry.1.slicePart = i).map fun entry =>
      bytesAt mem (buffer + entry.2.bufferOffset) plan.bufferPartSize
  let missing := (plan.requestedParts.map (·.part)).filter fun part => !hasPart available part
  let result := ((ReedSolomon.create k m).recover dataParts (erasedBy k m available)
    missing.toFinset plan.bufferPartSize).2
  result.foldl (fun mem output =>
    overwrite mem
      (buffer + plan.requestedParts.findIdx (·.part = output.1) * plan.bufferPartSize)
      output.2.length fun a => output.2.getD a 0) mem

/-- [SPEC ec_read_plan.h:91-108, slice_read_plan.h:97-108] -/
def postProcessRead (plan : ReadPlan) (buffer : ℕ) (mem : Memory)
    (available : List ChunkPartType) : Memory :=
  let mem := plan.alignParts buffer mem
  if plan.sliceType.isXor then plan.recoverXor buffer mem available
  else if plan.sliceType.isEC then
    if plan.requestedParts.any fun info => !hasPart available info.part then
      plan.recoverParts buffer mem available
    else mem
  else mem

/-! ## Plans that are laid out -/

/-- The bytes asked of a part, in a range of blocks. -/
def sizeIn (cpt : ChunkPartType) (firstBlock blockCount : ℕ) : ℕ :=
  sfsBlockSize * min (cpt.getNumberOfBlocks - firstBlock) blockCount

/-- Every part of the plan has a place of its own in the buffer, of the size of the range;
requested parts have the places of their order. -/
structure Laid (plan : ReadPlan) (firstBlock blockCount : ℕ) (slot : ℕ → ℕ) (slots : ℕ) :
    Prop where
  partSize : plan.bufferPartSize = blockCount * sfsBlockSize
  requested : ∀ info ∈ plan.requestedParts, (⟨plan.sliceType, info.part⟩ : ChunkPartType).Valid ∧
    info.size = sizeIn ⟨plan.sliceType, info.part⟩ firstBlock blockCount
  requestedDistinct : (plan.requestedParts.map (·.part)).Nodup
  operations : ∀ entry ∈ plan.readOperations, entry.1.sliceType = plan.sliceType ∧
    entry.1.Valid ∧ entry.2.requestOffset = firstBlock * sfsBlockSize ∧
    entry.2.requestSize = sizeIn entry.1 firstBlock blockCount ∧
    entry.2.bufferOffset = slot entry.1.slicePart * plan.bufferPartSize
  distinct : (plan.readOperations.map (·.1.slicePart)).Nodup
  slotsDistinct : ∀ first ∈ plan.readOperations, ∀ second ∈ plan.readOperations,
    slot first.1.slicePart = slot second.1.slicePart → first.1.slicePart = second.1.slicePart
  slotBound : ∀ entry ∈ plan.readOperations, slot entry.1.slicePart < slots
  requestedSlot : ∀ i < plan.requestedParts.length,
    slot (plan.requestedParts.getD i ⟨0, 0⟩).part = i
  otherSlot : ∀ entry ∈ plan.readOperations,
    entry.1.slicePart ∉ plan.requestedParts.map (·.part) →
      plan.requestedParts.length ≤ slot entry.1.slicePart
  bufferSize : plan.readBufferSize = slots * plan.bufferPartSize
  enoughSlots : plan.requestedParts.length ≤ slots

/-- The regions that the operations store to lie in the read buffer, and no two of them
meet. -/
structure Separate (plan : ReadPlan) : Prop where
  disjoint : plan.readOperations.Pairwise fun first second =>
    first.2.bufferOffset + first.2.requestSize ≤ second.2.bufferOffset ∨
      second.2.bufferOffset + second.2.requestSize ≤ first.2.bufferOffset
  inside : ∀ entry ∈ plan.readOperations,
    entry.2.bufferOffset + entry.2.requestSize ≤ plan.readBufferSize

/-- The read buffer, after the operations for some parts have finished: those have stored what
was asked of their parts, the others have left anything in their own region, and everywhere
else there are the zeros from the start. -/
structure Stored (plan : ReadPlan) (chunk : Content) (buffer : ℕ) (finished : List ChunkPartType)
    (mem : Memory) : Prop where
  distinct : finished.Nodup
  planned : ∀ cpt ∈ finished, cpt ∈ plan.readOperations.map Prod.fst
  stored : ∀ entry ∈ plan.readOperations, entry.1 ∈ finished → ∀ a < entry.2.requestSize,
    mem (buffer + entry.2.bufferOffset + a) = partByte chunk entry.1 (entry.2.requestOffset + a)
  zeros : ∀ a < plan.readBufferSize,
    (∀ entry ∈ plan.readOperations, Outside entry.2.bufferOffset entry.2.requestSize a) →
      mem (buffer + a) = 0

variable {plan : ReadPlan} {firstBlock blockCount slots buffer : ℕ} {slot : ℕ → ℕ}
  {chunk : Content} {finished : List ChunkPartType} {mem : Memory}
  {entry first second : ChunkPartType × ReadOperation}

theorem sizeIn_le (cpt : ChunkPartType) (firstBlock blockCount : ℕ) :
    sizeIn cpt firstBlock blockCount ≤ blockCount * sfsBlockSize := by
  rw [sizeIn, mul_comm]
  exact mul_le_mul_right _ (min_le_right _ _)

/-- What was not asked of a part in the range lies beyond its end. -/
theorem partByte_beyond {cpt : ChunkPartType} (h : cpt.Valid) {a : ℕ}
    (lt : a < blockCount * sfsBlockSize) (le : sizeIn cpt firstBlock blockCount ≤ a) :
    partByte chunk cpt (firstBlock * sfsBlockSize + a) = 0 := by
  refine partByte_eq_zero chunk h ?_
  unfold sizeIn at le
  rcases le_total blockCount (cpt.getNumberOfBlocks - firstBlock) with whole | cut
  · rw [min_eq_right whole, mul_comm] at le
    omega
  rw [min_eq_left cut] at le
  calc cpt.getNumberOfBlocks * sfsBlockSize
      ≤ (firstBlock + (cpt.getNumberOfBlocks - firstBlock)) * sfsBlockSize :=
        mul_le_mul_right _ (by omega)
    _ = firstBlock * sfsBlockSize + sfsBlockSize * (cpt.getNumberOfBlocks - firstBlock) := by
        ring
    _ ≤ firstBlock * sfsBlockSize + a := Nat.add_le_add_left le _

theorem getD_mem {infos : List RequestedPartInfo} {i : ℕ} (lt : i < infos.length) :
    infos.getD i ⟨0, 0⟩ ∈ infos :=
  ReedSolomon.getD_mem lt _

variable {part : ℕ} {missingOffset missingSize : ℕ} {ops : List ReadOperation}

/-- The index of a requested part. -/
theorem exists_index (asked : part ∈ plan.requestedParts.map (·.part)) :
    ∃ i < plan.requestedParts.length, (plan.requestedParts.getD i ⟨0, 0⟩).part = part := by
  obtain ⟨info, among, rfl⟩ := mem_map.mp asked
  obtain ⟨i, index, rfl⟩ := getElem_of_mem among
  exact ⟨i, index, by rw [getD_eq_getElem _ _ index]⟩

namespace Laid

variable (laid : Laid plan firstBlock blockCount slot slots)
include laid

theorem operation_eq (memberFirst : first ∈ plan.readOperations)
    (memberSecond : second ∈ plan.readOperations)
    (eq : first.1.slicePart = second.1.slicePart) : first = second :=
  inj_on_of_nodup_map laid.distinct memberFirst memberSecond eq

theorem requestSize_le (mem : entry ∈ plan.readOperations) :
    entry.2.requestSize ≤ plan.bufferPartSize := by
  rw [(laid.operations entry mem).2.2.2.1, laid.partSize]
  exact sizeIn_le _ _ _

theorem requestedSize_le {i : ℕ} (lt : i < plan.requestedParts.length) :
    (plan.requestedParts.getD i ⟨0, 0⟩).size ≤ plan.bufferPartSize := by
  rw [(laid.requested _ (getD_mem lt)).2, laid.partSize]
  exact sizeIn_le _ _ _

/-- Regions of different parts do not meet. -/
theorem regions_apart (memberFirst : first ∈ plan.readOperations)
    (memberSecond : second ∈ plan.readOperations) (ne : first.1.slicePart ≠ second.1.slicePart) :
    first.2.bufferOffset + plan.bufferPartSize ≤ second.2.bufferOffset ∨
      second.2.bufferOffset + plan.bufferPartSize ≤ first.2.bufferOffset := by
  obtain ⟨-, -, -, -, offsetFirst⟩ := laid.operations first memberFirst
  obtain ⟨-, -, -, -, offsetSecond⟩ := laid.operations second memberSecond
  have slotOther : slot first.1.slicePart ≠ slot second.1.slicePart :=
    fun eq => ne (laid.slotsDistinct first memberFirst second memberSecond eq)
  rw [offsetFirst, offsetSecond, ← Nat.succ_mul, ← Nat.succ_mul]
  exact (lt_or_gt_of_ne slotOther).imp (Nat.mul_le_mul_right _) (Nat.mul_le_mul_right _)

/-- The region of a part lies in the read buffer. -/
theorem region_le (mem : entry ∈ plan.readOperations) :
    entry.2.bufferOffset + plan.bufferPartSize ≤ plan.readBufferSize := by
  rw [(laid.operations entry mem).2.2.2.2, laid.bufferSize, ← Nat.succ_mul]
  exact Nat.mul_le_mul_right _ (laid.slotBound entry mem)

/-- The regions of the plan lie in the read buffer and do not meet. -/
theorem separate : plan.Separate := by
  constructor
  · refine (pairwise_map.mp laid.distinct).imp_of_mem fun {first second} memberFirst
      memberSecond other => ?_
    have := laid.requestSize_le memberFirst
    have := laid.requestSize_le memberSecond
    exact (laid.regions_apart memberFirst memberSecond other).imp (by omega) (by omega)
  · intro entry mem
    exact (Nat.add_le_add_left (laid.requestSize_le mem) _).trans (laid.region_le mem)

/-- No operation begins beyond the end of its part, so that the sizes asked for are not cut off
at zero. -/
theorem starts (early : firstBlock ≤ sfsBlocksInChunk / plan.sliceType.getNumberOfDataParts)
    (mem : entry ∈ plan.readOperations) :
    entry.2.requestOffset ≤ entry.1.getNumberOfBlocks * sfsBlockSize := by
  obtain ⟨typed, -, offset, -⟩ := laid.operations entry mem
  rw [offset]
  refine mul_le_mul_right _ (early.trans ?_)
  rw [← typed]
  exact Nat.div_le_div_right (Nat.le_add_right _ _)

/-- The index of a requested part is its place. -/
theorem findIdx_part {i : ℕ} (lt : i < plan.requestedParts.length) :
    plan.requestedParts.findIdx (·.part = (plan.requestedParts.getD i ⟨0, 0⟩).part) = i := by
  set part := (plan.requestedParts.getD i ⟨0, 0⟩).part
  have found : plan.requestedParts.findIdx (·.part = part) < plan.requestedParts.length :=
    findIdx_lt_length_of_exists ⟨plan.requestedParts.getD i ⟨0, 0⟩, getD_mem lt, by simp [part]⟩
  have eq := findIdx_getElem (w := found)
  have here := laid.requestedSlot _ found
  rw [getD_eq_getElem _ _ found, of_decide_eq_true eq] at here
  rw [← here]
  exact laid.requestedSlot i lt

/-- Requested parts with one place are one part. -/
theorem eq_of_findIdx {first second : ℕ} (isFirst : first ∈ plan.requestedParts.map (·.part))
    (isSecond : second ∈ plan.requestedParts.map (·.part))
    (same : plan.requestedParts.findIdx (·.part = first) =
      plan.requestedParts.findIdx (·.part = second)) : first = second := by
  obtain ⟨i, inside, rfl⟩ := exists_index isFirst
  obtain ⟨j, insideJ, rfl⟩ := exists_index isSecond
  rw [laid.findIdx_part inside, laid.findIdx_part insideJ] at same
  rw [same]

/-- A part that was read is not in the place of one that was not. -/
theorem slot_ne_of_lost {missing : ℕ} (index : missing < plan.requestedParts.length)
    (lost : hasPart finished (plan.requestedParts.getD missing ⟨0, 0⟩).part = false)
    (mem : entry ∈ plan.readOperations) (has : hasPart finished entry.1.slicePart = true) :
    missing ≠ slot entry.1.slicePart := by
  intro eq
  by_cases asked : entry.1.slicePart ∈ plan.requestedParts.map (·.part)
  · obtain ⟨j, indexJ, samePart⟩ := exists_index asked
    have placeJ := laid.requestedSlot j indexJ
    rw [samePart, ← eq] at placeJ
    subst placeJ
    rw [samePart, has] at lost
    exact Bool.noConfusion lost
  · have := laid.otherSlot entry mem asked
    omega

end Laid

/-! ## After the alignment -/

/-- The requested parts have zeros beyond their size; the rest of the buffer is as it was. -/
theorem alignParts_spec (plan : ReadPlan) (buffer : ℕ) (mem : Memory) :
    (∀ i < plan.requestedParts.length, ∀ a < plan.bufferPartSize,
      plan.alignParts buffer mem (buffer + i * plan.bufferPartSize + a) =
        if a < (plan.requestedParts.getD i ⟨0, 0⟩).size then
          mem (buffer + i * plan.bufferPartSize + a) else 0) ∧
      ∀ a, Outside buffer (plan.requestedParts.length * plan.bufferPartSize) a →
        plan.alignParts buffer mem a = mem a := by
  refine foldl_fill (fun i a => if a < (plan.requestedParts.getD i ⟨0, 0⟩).size then
    mem (buffer + i * plan.bufferPartSize + a) else 0) fun now i _ frame => ?_
  funext address
  unfold overwrite
  set size := (plan.requestedParts.getD i ⟨0, 0⟩).size
  by_cases block : buffer + i * plan.bufferPartSize ≤ address ∧
      address < buffer + i * plan.bufferPartSize + plan.bufferPartSize
  · rw [if_pos block]
    dsimp only
    by_cases early : address - (buffer + i * plan.bufferPartSize) < size
    · rw [if_pos early, if_neg (by omega), frame address (.inr block.1)]
      exact congrArg mem (by omega)
    · rw [if_neg early, if_pos (by omega)]
  · rw [if_neg block, if_neg]
    omega

theorem hasPart_iff {avail : List ChunkPartType} :
    hasPart avail part = true ↔ part ∈ avail.map (·.slicePart) := by
  simp [hasPart]

theorem findIdx?_missing {i : ℕ}
    (found : plan.requestedParts.findIdx? (fun info => !hasPart finished info.part) = some i) :
    i < plan.requestedParts.length ∧
      hasPart finished (plan.requestedParts.getD i ⟨0, 0⟩).part = false := by
  obtain ⟨bound, missing, -⟩ := findIdx?_eq_some_iff_getElem.mp found
  refine ⟨bound, ?_⟩
  rw [getD_eq_getElem _ _ bound]
  simpa using missing

/-- A part with that number was read. -/
theorem Stored.entry_of_hasPart (stored : Stored plan chunk buffer finished mem)
    (has : hasPart finished part = true) :
    ∃ entry ∈ plan.readOperations, entry.1 ∈ finished ∧ entry.1.slicePart = part := by
  obtain ⟨cpt, done, eq⟩ := any_eq_true.mp has
  obtain ⟨entry, member, rfl⟩ := mem_map.mp (stored.planned cpt done)
  exact ⟨entry, member, done, of_decide_eq_true eq⟩

theorem copyFirst_spec (buffer missingOffset missingSize : ℕ) (mem : Memory) (op : ReadOperation) :
    (∀ a < missingSize,
      copyFirst buffer missingOffset missingSize mem op (buffer + missingOffset + a) =
        if a < op.requestSize then mem (buffer + op.bufferOffset + a) else 0) ∧
      ∀ a, Outside (buffer + missingOffset) missingSize a →
        copyFirst buffer missingOffset missingSize mem op a = mem a := by
  have le : min op.requestSize missingSize ≤ missingSize := min_le_right _ _
  constructor
  · intro a inside
    unfold copyFirst
    split
    case isTrue small =>
      have early : a < min op.requestSize missingSize := lt_min small inside
      rw [overwrite_of_outside (.inl (by omega)), overwrite_add early]
    case isFalse large =>
      have place : buffer + missingOffset + a = buffer + missingOffset +
          min op.requestSize missingSize + (a - min op.requestSize missingSize) := by
        omega
      rw [place, overwrite_add (by omega)]
  · intro a outside
    unfold copyFirst
    rw [overwrite_of_outside, overwrite_of_outside (outside.mono le)]
    rcases outside with prev | after
    · exact .inl (by omega)
    · exact .inr (by omega)

/-- The parts are added up in the place of the missing one, which none of them is in. -/
theorem foldl_addNext (mem : Memory) (apart : ∀ op ∈ ops, ∀ a < missingSize,
      Outside (buffer + missingOffset) missingSize (buffer + op.bufferOffset + a)) :
    (∀ a < missingSize,
      ops.foldl (addNext buffer missingOffset missingSize) mem (buffer + missingOffset + a) =
        mem (buffer + missingOffset + a) + (ops.map fun op =>
          if a < op.requestSize then mem (buffer + op.bufferOffset + a) else 0).sum) ∧
      ∀ a, Outside (buffer + missingOffset) missingSize a →
        ops.foldl (addNext buffer missingOffset missingSize) mem a = mem a := by
  induction ops using reverseRecOn with
  | nil => exact ⟨fun a _ => (add_zero _).symm, fun _ _ => rfl⟩
  | append_singleton ops op ih =>
    obtain ⟨sums, frame⟩ := ih fun other member => apart other (mem_append_left _ member)
    rw [foldl_append, foldl_cons, foldl_nil]
    refine ⟨fun a inside => ?_, fun a outside => ?_⟩
    · rw [map_append, List.sum_append, ← add_assoc, ← sums a inside, map_singleton,
        List.sum_singleton, addNext]
      split
      case isTrue small =>
        rw [overwrite_add (lt_min small inside), frame _ (apart op (by simp) a inside)]
      case isFalse large =>
        rw [overwrite_of_outside, add_zero]
        refine .inr ?_
        omega
    · rw [addNext, overwrite_of_outside (outside.mono (min_le_right _ _)), frame a outside]

theorem addUp_spec (mem : Memory) (some : ops ≠ []) (apart : ∀ op ∈ ops, ∀ a < missingSize,
      Outside (buffer + missingOffset) missingSize (buffer + op.bufferOffset + a)) :
    (∀ a < missingSize,
      addUp buffer missingOffset missingSize mem ops (buffer + missingOffset + a) =
        (ops.map fun op =>
          if a < op.requestSize then mem (buffer + op.bufferOffset + a) else 0).sum) ∧
      ∀ a, Outside (buffer + missingOffset) missingSize a →
        addUp buffer missingOffset missingSize mem ops a = mem a := by
  cases ops with
  | nil => exact absurd rfl some
  | cons op rest =>
    obtain ⟨first, firstFrame⟩ := copyFirst_spec buffer missingOffset missingSize mem op
    obtain ⟨sums, frame⟩ := foldl_addNext
      (copyFirst buffer missingOffset missingSize mem op)
      fun other member => apart other (mem_cons_of_mem op member)
    refine ⟨fun a inside => ?_, fun a outside => ?_⟩
    · rw [addUp, sums a inside, first a inside, map_cons]
      congr 2
      refine map_congr_left fun other member => ?_
      rw [firstFrame _ (apart other (mem_cons_of_mem op member) a inside)]
    · rw [addUp, frame a outside, firstFrame a outside]

theorem GF256.neg_eq (x : GF256) : -x = x :=
  rfl

/-- The bytes of the data parts in the range, which the parts of the slice encode. -/
def dataIn (chunk : Content) (k firstBlock size : ℕ) : List (List GF256) :=
  (List.range k).map fun j => (List.range size).map fun a =>
    dataByte chunk k j (firstBlock * sfsBlockSize + a)

/-- The parts of an erasure coded slice are the code word of the data parts. -/
theorem codePart_dataIn (chunk : Content) {type : SliceType} (ec : type.isEC = true)
    (valid : part < type.getNumberOfDataParts + type.getNumberOfParityParts)
    (firstBlock size : ℕ) :
    codePart (createRSMatrix type.getNumberOfDataParts type.getNumberOfParityParts)
        (dataIn chunk type.getNumberOfDataParts firstBlock size) size part =
      (List.range size).map fun a =>
        partByte chunk ⟨type, part⟩ (firstBlock * sfsBlockSize + a) := by
  obtain ⟨fewData, -, few⟩ := ec_bounds ec
  refine map_congr_left fun b mem => ?_
  rw [partByte_of_isEC chunk ec]
  refine GaussJordan.dot_congr fun j within => ?_
  rw [length_row (generator_createRSMatrix fewData few) valid] at within
  simp [dataIn, getElem?_range within, getElem?_range (mem_range.mp mem)]

theorem erasedBy_spec {k m : ℕ} (finished : List ChunkPartType)
    (enough : k ≤ ((List.range (k + m)).filter (hasPart finished)).length) :
    erasedBy k m finished ⊆ Finset.range (k + m) ∧ (erasedBy k m finished).card = m ∧
      (∀ i < k + m, i ∉ erasedBy k m finished → hasPart finished i = true) ∧
      ∀ i < k + m, hasPart finished i = false → i ∈ erasedBy k m finished := by
  set kept := ((List.range (k + m)).filter (hasPart finished)).take k with keptEq
  have among : ∀ i ∈ kept, i < k + m ∧ hasPart finished i = true := by
    intro i mem
    have there := mem_filter.mp (mem_of_mem_take mem)
    exact ⟨mem_range.mp there.1, there.2⟩
  have nodup : kept.Nodup := (nodup_range.filter _).sublist (take_sublist _ _)
  have count : kept.length = k := by rw [length_take, min_eq_left enough]
  refine ⟨Finset.filter_subset _ _, ?_, ?_, ?_⟩
  · have rest : erasedBy k m finished = Finset.range (k + m) \ kept.toFinset := by
      ext i
      simp [erasedBy, ← keptEq]
    have inside : kept.toFinset ⊆ Finset.range (k + m) := fun i mem =>
      Finset.mem_range.mpr (among i (mem_toFinset.mp mem)).1
    rw [rest, Finset.card_sdiff_of_subset inside, Finset.card_range,
      toFinset_card_of_nodup nodup, count, Nat.add_sub_cancel_left]
  · intro i bound survives
    have mem : i ∈ kept := by
      by_contra absent
      exact survives (Finset.mem_filter.mpr ⟨Finset.mem_range.mpr bound, absent⟩)
    exact (among i mem).2
  · intro i bound missing
    refine Finset.mem_filter.mpr ⟨Finset.mem_range.mpr bound, fun mem => ?_⟩
    rw [(among i mem).2] at missing
    exact Bool.noConfusion missing

section

variable (stored : Stored plan chunk buffer finished mem)
  (laid : Laid plan firstBlock blockCount slot slots)
include stored laid

/-- The place of a part that was read holds the part, with zeros beyond its end. -/
theorem Stored.aligned (member : entry ∈ plan.readOperations)
    (done : entry.1 ∈ finished) {a : ℕ} (lt : a < plan.bufferPartSize) :
    plan.alignParts buffer mem (buffer + entry.2.bufferOffset + a) =
      partByte chunk entry.1 (firstBlock * sfsBlockSize + a) := by
  obtain ⟨type, valid, from_, size, offset⟩ := laid.operations entry member
  have beyond (past : entry.2.requestSize ≤ a) :
      partByte chunk entry.1 (firstBlock * sfsBlockSize + a) = 0 :=
    partByte_beyond valid (laid.partSize ▸ lt) (size ▸ past)
  have early (small : a < entry.2.requestSize) :
      mem (buffer + entry.2.bufferOffset + a) =
        partByte chunk entry.1 (firstBlock * sfsBlockSize + a) :=
    from_ ▸ stored.stored entry member done a small
  obtain ⟨aligned, rest⟩ := plan.alignParts_spec buffer mem
  by_cases asked : entry.1.slicePart ∈ plan.requestedParts.map (·.part)
  · obtain ⟨i, index, part⟩ := exists_index asked
    have place : slot entry.1.slicePart = i := part ▸ laid.requestedSlot i index
    have sameSize : (plan.requestedParts.getD i ⟨0, 0⟩).size = entry.2.requestSize := by
      rw [(laid.requested _ (getD_mem index)).2, size, part, ← type]
    rw [offset, place, aligned i index a lt, sameSize]
    split
    case isTrue small => rw [← early small, offset, place]
    case isFalse past => exact (beyond (Nat.le_of_not_lt past)).symm
  -- a part that was not requested is followed by the zeros from the start
  have late := laid.otherSlot entry member asked
  have untouched : Outside buffer (plan.requestedParts.length * plan.bufferPartSize)
      (buffer + entry.2.bufferOffset + a) := by
    right
    have := mul_le_mul_right plan.bufferPartSize late
    omega
  rw [rest _ untouched]
  rcases lt_or_ge a entry.2.requestSize with small | past
  · exact early small
  rw [beyond past, add_assoc]
  have within := laid.region_le member
  refine stored.zeros _ (by omega) fun other memberOther => ?_
  by_cases eq : other.1.slicePart = entry.1.slicePart
  · rw [laid.operation_eq memberOther member eq]
    exact .inr (Nat.add_le_add_left past _)
  · have small := laid.requestSize_le memberOther
    exact (laid.regions_apart memberOther member eq).symm.imp (by omega) (by omega)

variable {i a : ℕ}

/-- A requested part that was read is in its place. -/
theorem Stored.requested_of_hasPart
    (index : i < plan.requestedParts.length) (lt : a < plan.bufferPartSize)
    (has : hasPart finished (plan.requestedParts.getD i ⟨0, 0⟩).part = true) :
    plan.alignParts buffer mem (buffer + i * plan.bufferPartSize + a) =
      partByte chunk ⟨plan.sliceType, (plan.requestedParts.getD i ⟨0, 0⟩).part⟩
        (firstBlock * sfsBlockSize + a) := by
  obtain ⟨entry, member, done, eq⟩ := stored.entry_of_hasPart has
  obtain ⟨type, -, -, -, offset⟩ := laid.operations entry member
  have place : slot entry.1.slicePart = i := by
    rw [eq]
    exact laid.requestedSlot i index
  have aligned := stored.aligned laid member done lt
  rw [offset, place] at aligned
  have part : entry.1 = ⟨plan.sliceType, (plan.requestedParts.getD i ⟨0, 0⟩).part⟩ := by
    rw [← type, ← eq]
  rw [aligned, part]

/-! ## The parts that were read -/

/-- The numbers of the parts that were read are distinct, and are those of parts of the slice. -/
theorem Stored.finished_parts : (finished.map (·.slicePart)).Nodup ∧
      ∀ part, hasPart finished part = true → part < plan.sliceType.expectedParts := by
  have typed : ∀ cpt ∈ finished, cpt.sliceType = plan.sliceType ∧ cpt.Valid := by
    intro cpt done
    obtain ⟨entry, mem, rfl⟩ := mem_map.mp (stored.planned cpt done)
    obtain ⟨type, valid, -⟩ := laid.operations entry mem
    exact ⟨type, valid⟩
  constructor
  · refine List.Nodup.map_on (fun first doneFirst second doneSecond eq => ?_) stored.distinct
    have types := (typed first doneFirst).1.trans (typed second doneSecond).1.symm
    cases first
    cases second
    simp_all
  · intro part has
    obtain ⟨cpt, done, eq⟩ := any_eq_true.mp has
    obtain ⟨type, valid⟩ := typed cpt done
    rw [← of_decide_eq_true eq, ← type]
    exact valid.part

/-- As many parts of the slice were read as there are in the list. -/
theorem Stored.card_finished :
    ((List.range plan.sliceType.expectedParts).filter (hasPart finished)).length
      = finished.length := by
  obtain ⟨distinct, bound⟩ := stored.finished_parts laid
  have numbered : finished.length = (finished.map (·.slicePart)).toFinset.card := by
    rw [toFinset_card_of_nodup distinct, length_map]
  rw [numbered, ← toFinset_card_of_nodup (nodup_range.filter _)]
  congr 1
  ext part
  simp only [mem_toFinset, mem_filter, mem_range]
  rw [← hasPart_iff, and_iff_right_iff_imp]
  exact bound part

/-- What is read is the part of an operation that has finished. -/
theorem Stored.mem_finished (mem : entry ∈ plan.readOperations)
    (has : hasPart finished entry.1.slicePart = true) : entry.1 ∈ finished := by
  obtain ⟨other, memberOther, done, eq⟩ := stored.entry_of_hasPart has
  rw [laid.operation_eq mem memberOther eq.symm]
  exact done

/-! ## Xor slices -/

section Xor

variable (xor : plan.sliceType.isXor = true)
  (enough : plan.sliceType.getNumberOfDataParts ≤ finished.length) {missing : ℕ}

include xor enough

/-- With one part of an xor slice missing, all the others were read. -/
theorem Stored.parts_eq_erase
    (valid : missing < plan.sliceType.expectedParts) (lost : hasPart finished missing = false) :
    (finished.map (·.slicePart)).toFinset =
      (Finset.range plan.sliceType.expectedParts).erase missing := by
  obtain ⟨distinct, bound⟩ := stored.finished_parts laid
  refine Finset.eq_of_subset_of_card_le (fun part mem => ?_) ?_
  · have has := hasPart_iff.mpr (mem_toFinset.mp mem)
    refine Finset.mem_erase.mpr ⟨?_, Finset.mem_range.mpr (bound part has)⟩
    rintro rfl
    rw [has] at lost
    exact Bool.noConfusion lost
  · rw [Finset.card_erase_of_mem (Finset.mem_range.mpr valid), Finset.card_range,
      expectedParts_of_isXor xor, toFinset_card_of_nodup distinct, length_map]
    exact enough

/-- With all but one of the parts of an xor slice read, they add up to the missing one. -/
theorem Stored.sum_finished
    (valid : missing < plan.sliceType.expectedParts) (lost : hasPart finished missing = false)
    (a : ℕ) : ((plan.readOperations.filter fun entry => hasPart finished entry.1.slicePart).map
      fun entry => partByte chunk entry.1 a).sum = partByte chunk ⟨plan.sliceType, missing⟩ a := by
  set entries := plan.readOperations.filter fun entry => hasPart finished entry.1.slicePart
  set parts := entries.map (·.1.slicePart) with partsEq
  have nodup : parts.Nodup := laid.distinct.sublist (filter_sublist.map _)
  have others : parts.toFinset = (Finset.range plan.sliceType.expectedParts).erase missing := by
    rw [← stored.parts_eq_erase laid xor enough valid lost]
    ext part
    rw [mem_toFinset, mem_toFinset, ← hasPart_iff, mem_map]
    constructor
    · rintro ⟨entry, mem, rfl⟩
      simpa using (mem_filter.mp mem).2
    · intro has
      obtain ⟨entry, mem, -, eq⟩ := stored.entry_of_hasPart has
      exact ⟨entry, mem_filter.mpr ⟨mem, by simpa [eq] using has⟩, eq⟩
  calc (entries.map fun entry => partByte chunk entry.1 a).sum
      = (parts.map fun part => partByte chunk ⟨plan.sliceType, part⟩ a).sum := by
        rw [map_map]
        congr 1
        refine map_congr_left fun entry mem => ?_
        obtain ⟨type, -⟩ := laid.operations entry (mem_filter.mp mem).1
        rw [Function.comp_apply, ← type]
    _ = ∑ part ∈ (Finset.range plan.sliceType.expectedParts).erase missing,
          partByte chunk ⟨plan.sliceType, part⟩ a := by
        rw [← others, sum_toFinset _ nodup]
    _ = -partByte chunk ⟨plan.sliceType, missing⟩ a := by
        have all := sum_partByte_of_isXor chunk xor a
        rw [← Finset.add_sum_erase _ _ (Finset.mem_range.mpr valid)] at all
        exact eq_neg_of_add_eq_zero_right all
    _ = partByte chunk ⟨plan.sliceType, missing⟩ a := GF256.neg_eq _

/-- At most one part of an xor slice is missing. -/
theorem Stored.missing_unique {first second : ℕ} (validFirst : first < plan.sliceType.expectedParts)
    (validSecond : second < plan.sliceType.expectedParts)
    (lostFirst : hasPart finished first = false) (lostSecond : hasPart finished second = false) :
    first = second := by
  by_contra other
  have among := Finset.mem_erase.mpr ⟨Ne.symm other, Finset.mem_range.mpr validSecond⟩
  rw [← stored.parts_eq_erase laid xor enough validFirst lostFirst, mem_toFinset, ← hasPart_iff,
    lostSecond] at among
  exact Bool.noConfusion among

/-- The place of the missing part of an xor slice gets the part, and the others stay. -/
theorem Stored.addUp (index : missing < plan.requestedParts.length)
    (lost : hasPart finished (plan.requestedParts.getD missing ⟨0, 0⟩).part = false) :
    let info := plan.requestedParts.getD missing ⟨0, 0⟩
    let result := ReadPlan.addUp buffer (missing * plan.bufferPartSize) info.size
      (plan.alignParts buffer mem)
      ((plan.readOperations.filter fun entry => hasPart finished entry.1.slicePart).map Prod.snd)
    (∀ a < info.size, result (buffer + missing * plan.bufferPartSize + a) =
        partByte chunk ⟨plan.sliceType, info.part⟩ (firstBlock * sfsBlockSize + a)) ∧
      ∀ a, Outside (buffer + missing * plan.bufferPartSize) info.size a →
        result a = plan.alignParts buffer mem a := by
  obtain ⟨valid, size⟩ := laid.requested _ (getD_mem index)
  have smaller := laid.requestedSize_le index
  set missingSize := (plan.requestedParts.getD missing ⟨0, 0⟩).size
  have sum := stored.sum_finished laid xor enough valid.part lost
  set entries := plan.readOperations.filter fun entry => hasPart finished entry.1.slicePart
    with entriesEq
  have some : entries.map Prod.snd ≠ [] := by
    obtain ⟨cpt, done⟩ := exists_mem_of_length_pos
      ((dataParts_pos plan.sliceType).trans_le enough)
    obtain ⟨entry, member, rfl⟩ := mem_map.mp (stored.planned cpt done)
    have has : hasPart finished entry.1.slicePart = true :=
      hasPart_iff.mpr (mem_map.mpr ⟨entry.1, done, rfl⟩)
    have there : entry ∈ entries := mem_filter.mpr ⟨member, has⟩
    exact ne_nil_of_mem (mem_map.mpr ⟨entry, there, rfl⟩)
  have apart : ∀ op ∈ entries.map Prod.snd, ∀ a < missingSize,
      Outside (buffer + missing * plan.bufferPartSize) missingSize
        (buffer + op.bufferOffset + a) := by
    intro op memberOp a small
    obtain ⟨entry, memberEntry, rfl⟩ := mem_map.mp memberOp
    obtain ⟨member, has⟩ := mem_filter.mp memberEntry
    obtain ⟨-, -, -, -, offset⟩ := laid.operations entry member
    have outside := outside_block_of_ne buffer
      (laid.slot_ne_of_lost index lost member has) (small.trans_le smaller)
    rw [← offset] at outside
    exact outside.mono smaller
  obtain ⟨sums, frame⟩ := addUp_spec (plan.alignParts buffer mem) some apart
  refine ⟨fun a small => ?_, frame⟩
  rw [sums a small, ← sum, map_map]
  congr 1
  refine map_congr_left fun entry memberEntry => ?_
  obtain ⟨member, has⟩ := mem_filter.mp memberEntry
  obtain ⟨-, entryValid, -, entrySize, -⟩ := laid.operations entry member
  have lt : a < plan.bufferPartSize := small.trans_le smaller
  rw [Function.comp_apply]
  split
  · exact stored.aligned laid member (stored.mem_finished laid member has) lt
  case isFalse late =>
    exact (partByte_beyond entryValid (laid.partSize ▸ lt) (entrySize ▸ Nat.le_of_not_lt late)).symm

end Xor

/-- The requested parts of an xor slice. -/
theorem Stored.recoverXor (xor : plan.sliceType.isXor = true)
    (complete : plan.isReadingFinished finished = true)
    (index : i < plan.requestedParts.length) (lt : a < plan.bufferPartSize) :
    plan.recoverXor buffer (plan.alignParts buffer mem) finished
        (buffer + i * plan.bufferPartSize + a) =
      partByte chunk ⟨plan.sliceType, (plan.requestedParts.getD i ⟨0, 0⟩).part⟩
        (firstBlock * sfsBlockSize + a) := by
  unfold ReadPlan.recoverXor
  cases found : plan.requestedParts.findIdx? fun info => !hasPart finished info.part with
  | none =>
    have has := findIdx?_eq_none_iff.mp found _ (getD_mem index)
    exact stored.requested_of_hasPart laid index lt (by simpa using has)
  | some missing =>
    obtain ⟨missingIndex, lost⟩ := findIdx?_missing found
    have enough : plan.sliceType.getNumberOfDataParts ≤ finished.length := by
      rcases Bool.or_eq_true_iff.mp complete with many | all
      · exact of_decide_eq_true many
      · have has := all_eq_true.mp all _ (getD_mem missingIndex)
        rw [lost] at has
        exact Bool.noConfusion has
    obtain ⟨valid, size⟩ := laid.requested _ (getD_mem missingIndex)
    obtain ⟨filled, frame⟩ := stored.addUp laid xor enough missingIndex lost
    dsimp only
    rcases eq_or_ne i missing with rfl | other
    · rcases lt_or_ge a (plan.requestedParts.getD i ⟨0, 0⟩).size with small | large
      · exact filled a small
      · -- beyond the end of the part there are the zeros of the alignment
        rw [frame _ (.inr (by omega)), (plan.alignParts_spec buffer mem).1 i index a lt,
          if_neg (not_lt.mpr large)]
        exact (partByte_beyond valid (laid.partSize ▸ lt) (size ▸ large)).symm
    rw [frame _ ((outside_block_of_ne buffer other.symm lt).mono
      (laid.requestedSize_le missingIndex))]
    refine stored.requested_of_hasPart laid index lt ?_
    by_contra notRead
    have eq : (plan.requestedParts.getD i ⟨0, 0⟩).part
        = (plan.requestedParts.getD missing ⟨0, 0⟩).part :=
      stored.missing_unique laid xor enough (laid.requested _ (getD_mem index)).1.part
        valid.part (by simpa using notRead) lost
    have placeI := laid.requestedSlot i index
    have placeMissing := laid.requestedSlot missing missingIndex
    rw [← eq, placeI] at placeMissing
    exact other placeMissing

/-! ## Erasure coded slices -/

/-- The bytes in the place of a part that was read. -/
theorem Stored.bytesAt {part : ℕ} (has : hasPart finished part = true) :
    (plan.readOperations.find? fun entry => entry.1.slicePart = part).map (fun entry =>
        ReadPlan.bytesAt (plan.alignParts buffer mem) (buffer + entry.2.bufferOffset)
          plan.bufferPartSize) = some ((List.range plan.bufferPartSize).map fun a =>
        partByte chunk ⟨plan.sliceType, part⟩ (firstBlock * sfsBlockSize + a)) := by
  obtain ⟨entry, member, done, eq⟩ := stored.entry_of_hasPart has
  have found : plan.readOperations.find? (fun entry => entry.1.slicePart = part) = some entry := by
    rw [← eq]
    exact KeyedList.find?_key laid.distinct member
  have type := (laid.operations entry member).1
  rw [found, Option.map_some]
  congr 1
  refine map_congr_left fun a inside => ?_
  rw [stored.aligned laid member done (mem_range.mp inside), ← type, ← eq]

/-- The requested parts of an erasure coded slice. -/
theorem Stored.recoverParts (ec : plan.sliceType.isEC = true) (le : plan.sliceType ≤ kECLast)
    (enough : plan.sliceType.getNumberOfDataParts ≤ finished.length)
    (index : i < plan.requestedParts.length) (lt : a < plan.bufferPartSize) :
    plan.recoverParts buffer (plan.alignParts buffer mem) finished
        (buffer + i * plan.bufferPartSize + a) =
      partByte chunk ⟨plan.sliceType, (plan.requestedParts.getD i ⟨0, 0⟩).part⟩
        (firstBlock * sfsBlockSize + a) := by
  obtain ⟨fewData, some, few⟩ := ec_bounds ec
  have total := expectedParts_eq le
  have count := stored.card_finished laid
  rw [total] at count
  unfold ReadPlan.recoverParts
  set k := plan.sliceType.getNumberOfDataParts
  set m := plan.sliceType.getNumberOfParityParts
  obtain ⟨erasedInside, exactly, survivors, erasedOf⟩ :=
    erasedBy_spec finished (count.symm ▸ enough)
  set missing := (plan.requestedParts.map (·.part)).filter fun part => !hasPart finished part
    with missingEq
  set codeword := codePart (createRSMatrix k m)
    (dataIn chunk k firstBlock plan.bufferPartSize) plan.bufferPartSize with codewordEq
  -- the decoder gives back the missing requested parts
  have decoded : ((create k m).recover (fun part =>
      (plan.readOperations.find? fun entry => entry.1.slicePart = part).map fun entry =>
        ReadPlan.bytesAt (plan.alignParts buffer mem) (buffer + entry.2.bufferOffset)
          plan.bufferPartSize) (erasedBy k m finished) missing.toFinset plan.bufferPartSize).2 =
      (selected (k + m) (erasedBy k m finished ∩ missing.toFinset)).map
        fun part => (part, codeword part) := by
    refine recover_eq (cached_create k m) fewData some few erasedInside
      exactly fun part bound kept => ?_
    rw [stored.bytesAt laid (survivors part bound kept), codePart_dataIn chunk ec bound]
    exact .inl rfl
  set items := selected (k + m) (erasedBy k m finished ∩ missing.toFinset)
  have requestedOf : ∀ part ∈ items,
      part ∈ plan.requestedParts.map (·.part) ∧ hasPart finished part = false := by
    intro part member
    have among := (Finset.mem_inter.mp (mem_selected.mp member).2).2
    obtain ⟨asked, lost⟩ := mem_filter.mp (mem_toFinset.mp among)
    exact ⟨asked, by simpa using lost⟩
  have nodup : (items.map fun part => plan.requestedParts.findIdx (·.part = part)).Nodup :=
    List.Nodup.map_on (fun first isFirst second isSecond same =>
      laid.eq_of_findIdx (requestedOf first isFirst).1 (requestedOf second isSecond).1 same)
      (nodup_range.filter _)
  obtain ⟨written, kept⟩ := foldl_places
    (fun part a => (codeword part).getD a 0) buffer plan.bufferPartSize nodup
    (plan.alignParts buffer mem)
  rw [decoded, foldl_map]
  simp only [codewordEq, length_codePart] at written kept ⊢
  have validI := (laid.requested _ (getD_mem index)).1.part
  set part := (plan.requestedParts.getD i ⟨0, 0⟩).part with partEq
  have asked : part ∈ plan.requestedParts.map (·.part) := mem_map.mpr ⟨_, getD_mem index, rfl⟩
  by_cases has : hasPart finished part = true
  · rw [kept i ?_ a lt]
    · exact stored.requested_of_hasPart laid index lt has
    · intro among
      obtain ⟨other, member, place⟩ := mem_map.mp among
      obtain ⟨askedOther, lost⟩ := requestedOf other member
      have same := laid.eq_of_findIdx askedOther asked (place.trans (laid.findIdx_part index).symm)
      rw [same, has] at lost
      exact Bool.noConfusion lost
  have lost : hasPart finished part = false := by simpa using has
  have bound : part < k + m := total ▸ validI
  have member : part ∈ items :=
    mem_selected.mpr ⟨bound, Finset.mem_inter.mpr
      ⟨erasedOf part bound lost, mem_toFinset.mpr (mem_filter.mpr ⟨asked, by simp [lost]⟩)⟩⟩
  have value := written part member a lt
  rw [laid.findIdx_part index, codePart_dataIn chunk ec bound] at value
  rw [value]
  simp [getElem?_range lt]

/-- After the processing every requested part is in its place. -/
theorem postProcessRead_requested (le : plan.sliceType ≤ kECLast)
    (complete : plan.isReadingFinished finished = true)
    (index : i < plan.requestedParts.length) (lt : a < plan.bufferPartSize) :
    plan.postProcessRead buffer mem finished (buffer + i * plan.bufferPartSize + a) =
      partByte chunk ⟨plan.sliceType, (plan.requestedParts.getD i ⟨0, 0⟩).part⟩
        (firstBlock * sfsBlockSize + a) := by
  unfold postProcessRead
  split
  case isTrue xor => exact stored.recoverXor laid xor complete index lt
  case isFalse notXor =>
    have enough_or_all := Bool.or_eq_true_iff.mp complete
    split
    case isTrue ec =>
      split
      case isTrue missing =>
        refine stored.recoverParts laid ec le ?_ index lt
        rcases enough_or_all with many | all
        · exact of_decide_eq_true many
        · obtain ⟨info, member, lost⟩ := any_eq_true.mp missing
          have has := all_eq_true.mp all info member
          simp [has] at lost
      case isFalse none =>
        refine stored.requested_of_hasPart laid index lt ?_
        by_contra lost
        exact none (any_eq_true.mpr ⟨_, getD_mem index, by simpa using lost⟩)
    case isFalse notEC =>
      -- the only part of the slice was read
      refine stored.requested_of_hasPart laid index lt ?_
      rcases enough_or_all with many | all
      · have valid : (plan.requestedParts.getD i ⟨0, 0⟩).part < plan.sliceType.expectedParts :=
          (laid.requested _ (getD_mem index)).1.part
        have one : plan.sliceType.expectedParts = 1 := by
          rw [expectedParts_eq le, getNumberOfDataParts, getNumberOfParityParts, if_neg notXor,
            if_neg notEC, if_neg notXor, if_neg notEC]
        have some : 0 < finished.length := (dataParts_pos _).trans_le (of_decide_eq_true many)
        obtain ⟨cpt, done⟩ := exists_mem_of_length_pos some
        have has : hasPart finished cpt.slicePart = true :=
          hasPart_iff.mpr (mem_map.mpr ⟨cpt, done, rfl⟩)
        have bound := (stored.finished_parts laid).2 _ has
        have eq : (plan.requestedParts.getD i ⟨0, 0⟩).part = cpt.slicePart := by
          omega
        rw [eq]
        exact has
      · exact all_eq_true.mp all _ (getD_mem index)

end

end ReadPlan

end LeilFS.Reading
