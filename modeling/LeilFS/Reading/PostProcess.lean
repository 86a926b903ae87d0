/-
Module: LeilFS.Reading.PostProcess
Purpose: The functions that process a read buffer further, each from one buffer to the one in
  front of it, and what they compute.
Trusted boundary: none
-/
import LeilFS.Reading.ReadPlan

namespace LeilFS.Reading

open FlatMemory List LeilFS.Chunks LeilFS.Erasure ReedSolomon
open FlatMemory (overwrite Outside)
open GaussJordan (dot)

namespace PostProcess

/-! ## The functions -/

/-- Where the converter of chunk data finds the part with a block of the chunk. -/
def partOf (firstRequiredPart dataPartCount x : ℕ) : ℕ :=
  if x % dataPartCount < firstRequiredPart then
    x % dataPartCount + dataPartCount - firstRequiredPart
  else x % dataPartCount - firstRequiredPart

/-- One block of parity is the first block of the stripe with the others added to it. -/
def xorStripe (dataPartCount dst src : ℕ) (mem : Memory) : Memory :=
  (List.range (dataPartCount - 1)).foldl (fun mem j =>
    overwrite mem dst sfsBlockSize fun o => mem (dst + o) + mem (src + (j + 1) * sfsBlockSize + o))
    (overwrite mem dst sfsBlockSize fun o => mem (src + o))

/-- One block of parity is recovered as the only part wanted of the erased ones. -/
def ecStripe (dataPartCount parityPartCount parityPartIndex dst src : ℕ)
    (state : ReedSolomon × Memory) : ReedSolomon × Memory :=
  let dataParts : FragmentMap := fun i =>
    if i < dataPartCount then
      some (ReadPlan.bytesAt state.2 (src + i * sfsBlockSize) sfsBlockSize)
    else none
  let result := state.1.recover dataParts
    (Finset.Ico dataPartCount (dataPartCount + parityPartCount))
    {dataPartCount + parityPartIndex} sfsBlockSize
  (result.1, result.2.foldl (fun mem output =>
    overwrite mem dst output.2.length fun a => output.2.getD a 0) state.2)

/-- A function processes the buffer `src` to the buffer `dst`
[SPEC chunk_read_planner.h:43-61, slice_recovery_planner.h:49-59,
xor_read_plan.h:42-56, ec_read_plan.h:42-69]. -/
def apply (dst src : ℕ) (mem : Memory) : PostProcess → Memory
  | .chunkBlocks chunkFirstBlock chunkBlockCount partFirstBlock partBlockCount firstRequiredPart
      dataPartCount =>
      (List.range chunkBlockCount).foldl (fun mem i =>
        let block := (chunkFirstBlock + i) / dataPartCount - partFirstBlock
        let part := partOf firstRequiredPart dataPartCount (chunkFirstBlock + i)
        overwrite mem (dst + i * sfsBlockSize) sfsBlockSize fun o =>
          mem (src + (part * partBlockCount + block) * sfsBlockSize + o)) mem
  | .partBlocks partBlockCount dataPartCount =>
      (List.range partBlockCount).foldl (fun mem i =>
        overwrite mem (dst + i * sfsBlockSize) sfsBlockSize fun o =>
          mem (src + i * (dataPartCount * sfsBlockSize) + o)) mem
  | .xorParity dataPartCount partBlockCount =>
      (List.range partBlockCount).foldl (fun mem i =>
        xorStripe dataPartCount (dst + i * sfsBlockSize)
          (src + i * (dataPartCount * sfsBlockSize)) mem) mem
  | .ecParity dataPartCount parityPartCount parityPartIndex partBlockCount =>
      ((List.range partBlockCount).foldl (fun state i =>
        ecStripe dataPartCount parityPartCount parityPartIndex (dst + i * sfsBlockSize)
          (src + i * (dataPartCount * sfsBlockSize)) state)
        (ReedSolomon.create dataPartCount parityPartCount, mem)).2

/-! ## What they compute -/

variable {dst src i o : ℕ}

/-- The blocks come out in the order of the chunk. -/
theorem apply_chunkBlocks {chunkFirstBlock chunkBlockCount partFirstBlock partBlockCount
    firstRequiredPart dataPartCount : ℕ} (mem : Memory)
    (apart : dst + chunkBlockCount * sfsBlockSize ≤ src) (inside : i < chunkBlockCount)
    (place : o < sfsBlockSize) :
    apply dst src mem (.chunkBlocks chunkFirstBlock chunkBlockCount partFirstBlock partBlockCount
        firstRequiredPart dataPartCount) (dst + i * sfsBlockSize + o) =
      mem (src + (partOf firstRequiredPart dataPartCount (chunkFirstBlock + i) * partBlockCount +
        ((chunkFirstBlock + i) / dataPartCount - partFirstBlock)) * sfsBlockSize + o) := by
  refine (foldl_fill (fun i o => mem (src +
    (partOf firstRequiredPart dataPartCount (chunkFirstBlock + i) * partBlockCount +
      ((chunkFirstBlock + i) / dataPartCount - partFirstBlock)) * sfsBlockSize + o))
    fun now j bound frame => ?_).1 i inside o place
  refine overwrite_congr fun o _ => frame _ (.inr ?_)
  have := Nat.mul_le_mul_right sfsBlockSize bound.le
  omega

/-- A stripe is added up in the place of its parity. -/
theorem xorStripe_eq {dataPartCount : ℕ} (some : 0 < dataPartCount) (mem : Memory)
    (apart : dst + sfsBlockSize ≤ src) :
    xorStripe dataPartCount dst src mem = overwrite mem dst sfsBlockSize fun o =>
      ∑ j ∈ Finset.range dataPartCount, mem (src + j * sfsBlockSize + o) := by
  -- after some additions the place holds the sum so far
  have along : ∀ n, (List.range n).foldl (fun mem j => overwrite mem dst sfsBlockSize fun o =>
        mem (dst + o) + mem (src + (j + 1) * sfsBlockSize + o))
      (overwrite mem dst sfsBlockSize fun o => mem (src + o)) =
        overwrite mem dst sfsBlockSize fun o =>
          ∑ j ∈ Finset.range (n + 1), mem (src + j * sfsBlockSize + o) := by
    intro n
    induction n with
    | zero =>
      rw [range_zero]
      simp
    | succ n ih =>
      rw [range_succ, foldl_append, ih, foldl_cons]
      refine Eq.trans (overwrite_congr fun o place => ?_) overwrite_overwrite
      rw [overwrite_add place, overwrite_of_outside (.inr (by omega)),
        Finset.sum_range_succ _ (n + 1)]
  obtain ⟨n, rfl⟩ := Nat.exists_eq_succ_of_ne_zero (Nat.pos_iff_ne_zero.mp some)
  exact along n

/-- The data of a stripe, as buffers. -/
def stripe (mem : Memory) (k src : ℕ) : List (List GF256) :=
  (List.range k).map fun j => ReadPlan.bytesAt mem (src + j * sfsBlockSize) sfsBlockSize

theorem getD_stripe (mem : Memory) (src : ℕ) {k j : ℕ} (inside : j < k) :
    (stripe mem k src).getD j [] = ReadPlan.bytesAt mem (src + j * sfsBlockSize) sfsBlockSize := by
  simp [stripe, getElem?_range inside]

/-- Of the erased parts, one is wanted. -/
theorem selected_parity {k m index : ℕ} (lt : index < m) :
    selected (k + m) (Finset.Ico k (k + m) ∩ {k + index}) = [k + index] := by
  have only : Finset.Ico k (k + m) ∩ {k + index} = {k + index} :=
    Finset.inter_singleton_of_mem (Finset.mem_Ico.mpr ⟨Nat.le_add_right _ _, by omega⟩)
  have once : (List.range (k + m)).count (k + index) = 1 :=
    count_eq_one_of_mem nodup_range (mem_range.mpr (by omega))
  rw [only, selected]
  simp only [Finset.mem_singleton]
  rw [filter_eq, once, replicate_one]

/-- A stripe is encoded in the place of the parity part. -/
theorem ecStripe_eq (dst src : ℕ) {k m index : ℕ} (fewData : k ≤ 32) (few : m ≤ 32)
    (bound : index < m)
    {state : ReedSolomon × Memory} (h : ReedSolomon.Cached k m state.1) :
    ReedSolomon.Cached k m (ecStripe k m index dst src state).1 ∧
      (ecStripe k m index dst src state).2 = overwrite state.2 dst sfsBlockSize fun o =>
        dot ((createRSMatrix k m).getD (k + index) []) fun j =>
          state.2 (src + j * sfsBlockSize + o) := by
  have generator := generator_createRSMatrix fewData few
  set fragments : FragmentMap := fun i =>
    if i < k then some (ReadPlan.bytesAt state.2 (src + i * sfsBlockSize) sfsBlockSize) else none
    with fragmentsEq
  refine ⟨h.after (.recover fragments (Finset.Ico k (k + m)) {k + index} sfsBlockSize), ?_⟩
  have given : ∀ i < k + m, i ∉ Finset.Ico k (k + m) → ReedSolomon.Gives (fragments i)
      (codePart (createRSMatrix k m) (stripe state.2 k src) sfsBlockSize i) := by
    intro i inside kept
    have data : i < k := by
      by_contra large
      exact kept (Finset.mem_Ico.mpr ⟨Nat.le_of_not_lt large, inside⟩)
    have here := getD_stripe state.2 src data
    left
    rw [codePart_data generator data
      (by rw [here, ReadPlan.bytesAt, length_map, length_range]), here]
    exact if_pos data
  have recovered : (state.1.recover fragments (Finset.Ico k (k + m)) {k + index} sfsBlockSize).2
      = _ :=
    recover_eq h fewData (by omega) few
      (fun i mem => Finset.mem_range.mpr (Finset.mem_Ico.mp mem).2)
      (by rw [Nat.card_Ico, Nat.add_sub_cancel_left]) given
  rw [selected_parity bound, map_cons] at recovered
  unfold ecStripe
  dsimp only
  rw [recovered, foldl_cons, length_codePart]
  refine overwrite_congr fun o place => ?_
  rw [getD_codePart _ _ place]
  refine GaussJordan.dot_congr fun j within => ?_
  have lt : j < k := by
    rwa [length_row generator (by omega)] at within
  rw [getD_stripe _ _ lt]
  simp [ReadPlan.bytesAt, getElem?_range place]

section Parts

variable {partBlockCount : ℕ} (mem : Memory) (apart : dst + partBlockCount * sfsBlockSize ≤ src)
  (inside : i < partBlockCount) (place : o < sfsBlockSize)

include apart inside place

/-- The blocks of one data part are picked from the stripes. -/
theorem apply_partBlocks {dataPartCount : ℕ} :
    apply dst src mem (.partBlocks partBlockCount dataPartCount) (dst + i * sfsBlockSize + o) =
      mem (src + i * (dataPartCount * sfsBlockSize) + o) := by
  refine (foldl_fill (fun i o => mem (src + i * (dataPartCount * sfsBlockSize) + o))
    fun now j bound frame => ?_).1 i inside o place
  refine overwrite_congr fun o _ => frame _ (.inr ?_)
  have := Nat.mul_le_mul_right sfsBlockSize bound.le
  omega

/-- Each block is the sum of its stripe. -/
theorem apply_xorParity {dataPartCount : ℕ} (some : 0 < dataPartCount) :
    apply dst src mem (.xorParity dataPartCount partBlockCount) (dst + i * sfsBlockSize + o) =
      ∑ j ∈ Finset.range dataPartCount,
        mem (src + i * (dataPartCount * sfsBlockSize) + j * sfsBlockSize + o) := by
  refine (foldl_fill (fun i o => ∑ j ∈ Finset.range dataPartCount,
    mem (src + i * (dataPartCount * sfsBlockSize) + j * sfsBlockSize + o))
    fun now j bound frame => ?_).1 i inside o place
  have within := Nat.mul_le_mul_right sfsBlockSize bound
  rw [Nat.succ_mul] at within
  rw [xorStripe_eq some now (by omega)]
  exact overwrite_congr fun o _ =>
    Finset.sum_congr rfl fun l _ => frame _ (.inr (by omega))

/-- Each block is the parity of its stripe. -/
theorem apply_ecParity {k m index : ℕ} (fewData : k ≤ 32) (few : m ≤ 32) (lt : index < m) :
    apply dst src mem (.ecParity k m index partBlockCount) (dst + i * sfsBlockSize + o) =
      dot ((createRSMatrix k m).getD (k + index) []) fun j =>
        mem (src + i * (k * sfsBlockSize) + j * sfsBlockSize + o) := by
  refine (foldl_blocks Prod.snd (fun state => ReedSolomon.Cached k m state.1)
    (fun i o => dot ((createRSMatrix k m).getD (k + index) []) fun j =>
        mem (src + i * (k * sfsBlockSize) + j * sfsBlockSize + o))
    (fun state j within cached frame => ?_) (cached_create k m)).1 i inside o place
  obtain ⟨still, written⟩ := ecStripe_eq (dst + j * sfsBlockSize)
    (src + j * (k * sfsBlockSize)) fewData few lt cached
  refine ⟨still, written.trans (overwrite_congr fun o _ => ?_)⟩
  have old := Nat.mul_le_mul_right sfsBlockSize within.le
  exact GaussJordan.dot_congr fun l _ => frame _ (.inr (by omega))

end Parts

end PostProcess

/-! ## All of them, one after the other -/

/-- The processed data at some point: where it begins, its size, and the memory. -/
structure Processed where
  address : ℕ
  size : ℕ
  memory : Memory

/-- The next function stores its result in front of its input. -/
def Processed.next (state : Processed) (entry : ℕ × PostProcess) : Processed where
  address := state.address - entry.1
  size := if 0 < entry.1 then entry.1 else state.size
  memory := entry.2.apply (state.address - entry.1) state.address state.memory

namespace ReadPlan

/-- The offset of the read buffer. -/
def readOffset (plan : ReadPlan) : ℕ :=
  (plan.postprocessOperations.map Prod.fst).sum

/-- [SPEC read_plan.h:142-161] -/
def postProcessData (plan : ReadPlan) (buffer : ℕ) (mem : Memory)
    (available : List ChunkPartType) : Processed :=
  let readBuffer := buffer + plan.readOffset
  plan.postprocessOperations.foldl Processed.next
    ⟨readBuffer, plan.requestedParts.length * plan.bufferPartSize,
      plan.postProcessRead readBuffer mem available⟩

/-- The plan with one more function at the end. -/
def withProcessing (plan : ReadPlan) (size : ℕ) (process : PostProcess) : ReadPlan :=
  { plan with postprocessOperations := plan.postprocessOperations ++ [(size, process)] }

theorem readOffset_withProcessing (plan : ReadPlan) (size : ℕ) (process : PostProcess) :
    (plan.withProcessing size process).readOffset = plan.readOffset + size := by
  simp [readOffset, withProcessing]

/-- The last function works on what the plan without it leaves behind its own place. -/
theorem postProcessData_withProcessing (plan : ReadPlan) (size : ℕ) (process : PostProcess)
    (buffer : ℕ) (mem : Memory) (avail : List ChunkPartType) :
    (plan.withProcessing size process).postProcessData buffer mem avail =
      (plan.postProcessData (buffer + size) mem avail).next (size, process) := by
  have offset : buffer + (plan.readOffset + size) = buffer + size + plan.readOffset := by ring
  unfold postProcessData
  rw [readOffset_withProcessing, offset, withProcessing, foldl_append]
  rfl

theorem postProcessData_of_none {plan : ReadPlan} (none : plan.postprocessOperations = [])
    (buffer : ℕ) (mem : Memory) (avail : List ChunkPartType) :
    plan.postProcessData buffer mem avail =
      ⟨buffer, plan.requestedParts.length * plan.bufferPartSize,
        plan.postProcessRead buffer mem avail⟩ := by
  simp [postProcessData, readOffset, none]

/-- The processed data begins where the buffer does. -/
theorem address_postProcessData (plan : ReadPlan) (buffer : ℕ) (mem : Memory)
    (avail : List ChunkPartType) : (plan.postProcessData buffer mem avail).address = buffer := by
  have along : ∀ (entries : List (ℕ × PostProcess)) (state : Processed),
      (entries.foldl Processed.next state).address
        = state.address - (entries.map Prod.fst).sum := by
    intro entries
    induction entries with
    | nil => exact fun state => rfl
    | cons entry rest ih =>
      intro state
      rw [foldl_cons, ih, map_cons, sum_cons, Processed.next, Nat.sub_sub]
  exact (along _ _).trans (Nat.add_sub_cancel _ _)

/-- What was stored does not depend on the functions that come later. -/
theorem Stored.of_withProcessing {plan : ReadPlan} {size : ℕ} {process : PostProcess}
    {chunk : Content} {buffer : ℕ} {done : List ChunkPartType} {mem : Memory}
    (h : Stored (plan.withProcessing size process) chunk buffer done mem) :
    Stored plan chunk buffer done mem :=
  ⟨h.distinct, h.planned, h.stored, h.zeros⟩

end ReadPlan

end LeilFS.Reading
