/-
Module: LeilFS.Reading.SlicePlanner
Purpose: Choosing the parts of a slice to read, their waves and their places in the buffer.
Trusted boundary: none
-/
import LeilFS.Reading.ReadPlan

namespace LeilFS.Reading

open List LeilFS.Chunks LeilFS.Erasure

/-- The planner of one slice. Its settings are how many parts to ask for in place of a number
of parts, and the scores of parts; the rest is what it was last prepared for. -/
structure SliceReadPlanner where
  overuse : ℕ → ℕ
  scores : ChunkPartType → Option ℚ
  sliceType : SliceType
  sliceParts : List ℕ
  weightedPartsToUse : List ChunkPartType
  requiredPartsAvailable : Bool
  canRead : Bool

namespace SliceReadPlanner

/-- A planner that is not prepared for anything. -/
def new (overuse : ℕ → ℕ) (scores : ChunkPartType → Option ℚ) : SliceReadPlanner :=
  ⟨overuse, scores, SliceType.kStandard, [], [], false, false⟩

/-! ## Preparation -/

/-- The different parts of a slice among the available ones, in their order. -/
def partsToUse (type : SliceType) (available : List ChunkPartType) : List ChunkPartType :=
  available.foldl (fun used part =>
    if part.sliceType = type ∧ part ∉ used then used ++ [part] else used) []

/-- [SPEC slice_read_planner.cc:39-72] -/
def prepare (planner : SliceReadPlanner) (sliceType : SliceType) (sliceParts : List ℕ)
    (available : List ChunkPartType) : SliceReadPlanner :=
  let parts := partsToUse sliceType available
  let requiredPartsAvailable := sliceParts.all (hasPart parts)
  let canRecoverParts : Bool := sliceType.getNumberOfDataParts ≤ parts.length
  let canRead := requiredPartsAvailable || canRecoverParts
  { planner with
    sliceType := sliceType
    sliceParts := sliceParts
    requiredPartsAvailable := requiredPartsAvailable
    canRead := canRead
    weightedPartsToUse :=
      if canRead then
        parts.mergeSort fun a b => (planner.scores b).getD 1 ≤ (planner.scores a).getD 1
      else [] }

/-- Parts without scores stay in their order. -/
theorem mergeSort_unscored (parts : List ChunkPartType) :
    parts.mergeSort (fun _ _ => decide ((1 : ℚ) ≤ 1)) = parts :=
  List.mergeSort_of_pairwise (List.pairwise_of_forall fun _ _ => by simp)

/-! ## Building a plan -/

/-- The read of a part is added, in the place of its order when it was requested and in the
next one otherwise [SPEC slice_read_planner.cc:91-105]. -/
def addPart (planner : SliceReadPlanner) (firstBlock blockCount wave : ℕ)
    (state : ReadPlan × ℕ) (cpt : ChunkPartType) : ReadPlan × ℕ :=
  let size := ReadPlan.sizeIn cpt firstBlock blockCount
  match planner.sliceParts.findIdx? (· = cpt.slicePart) with
  | none =>
      (state.1.withOperation cpt ⟨firstBlock * sfsBlockSize, size, state.2, wave⟩,
        state.2 + blockCount * sfsBlockSize)
  | some index =>
      (state.1.withOperation cpt
        ⟨firstBlock * sfsBlockSize, size, index * sfsBlockSize * blockCount, wave⟩, state.2)

/-- [SPEC slice_read_planner.cc:86-109] -/
def addParts (planner : SliceReadPlanner) (firstBlock blockCount partsCount wave : ℕ)
    (state : ReadPlan × ℕ) : ReadPlan × ℕ :=
  let added := ((planner.weightedPartsToUse.drop state.1.readOperations.length).take
    partsCount).foldl (planner.addPart firstBlock blockCount wave) state
  (added.1.withBufferSize added.2, added.2)

/-- The rest of the parts, two in a wave. -/
def addRest (planner : SliceReadPlanner) (firstBlock blockCount : ℕ) :
    ℕ → ℕ → ReadPlan × ℕ → ReadPlan × ℕ
  | 0, _, state => state
  | fuel + 1, wave, state =>
      if state.1.readOperations.length < planner.weightedPartsToUse.length then
        addRest planner firstBlock blockCount fuel (wave + 1)
          (planner.addParts firstBlock blockCount
            (min 2 (planner.weightedPartsToUse.length - state.1.readOperations.length)) wave state)
      else state

/-- [SPEC slice_read_planner.cc:131-154] -/
def addExtraParts (planner : SliceReadPlanner) (firstBlock blockCount : ℕ)
    (state : ReadPlan × ℕ) : ReadPlan × ℕ :=
  let ops := state.1.readOperations.length
  let toRecover := min (planner.overuse planner.sliceType.getNumberOfDataParts)
    planner.weightedPartsToUse.length
  if ops < toRecover then
    planner.addRest firstBlock blockCount planner.weightedPartsToUse.length 2
      (planner.addParts firstBlock blockCount (toRecover - ops) 1 state)
  else planner.addRest firstBlock blockCount planner.weightedPartsToUse.length 1 state

/-- The plan before any read is added. -/
def emptyPlan (planner : SliceReadPlanner) (firstBlock blockCount : ℕ) : ReadPlan :=
  { sliceType := planner.sliceType
    requestedParts := planner.sliceParts.map fun part =>
      ⟨part, ReadPlan.sizeIn ⟨planner.sliceType, part⟩ firstBlock blockCount⟩
    bufferPartSize := blockCount * sfsBlockSize
    readOperations := []
    readBufferSize := 0
    postprocessOperations := [] }

/-- The requested parts come first. -/
def partition (planner : SliceReadPlanner) : SliceReadPlanner :=
  { planner with
    weightedPartsToUse :=
      (planner.weightedPartsToUse.filter fun cpt => cpt.slicePart ∈ planner.sliceParts) ++
        planner.weightedPartsToUse.filter fun cpt => cpt.slicePart ∉ planner.sliceParts }

/-- [SPEC slice_read_planner.cc:172-220] -/
def buildPlanFor (planner : SliceReadPlanner) (firstBlock blockCount : ℕ)
    (addExtraPartsWhenRequiredPartsAvailable : Bool) : ReadPlan :=
  let plan := planner.emptyPlan firstBlock blockCount
  let start := (plan, plan.requestedParts.length * plan.bufferPartSize)
  if !planner.requiredPartsAvailable then
    let required := planner.sliceType.getNumberOfDataParts
    let basic := planner.addParts firstBlock blockCount (max (planner.overuse required) required)
      0 start
    (planner.addExtraParts firstBlock blockCount basic).1
  else
    let requestedPartsCount :=
      (planner.weightedPartsToUse.filter fun cpt => cpt.slicePart ∈ planner.sliceParts).length
    let basic := planner.partition.addParts firstBlock blockCount requestedPartsCount 0 start
    if addExtraPartsWhenRequiredPartsAvailable then
      (planner.partition.addExtraParts firstBlock blockCount basic).1
    else basic.1

/-! ## The parts to use -/

variable {cpt : ChunkPartType} {available : List ChunkPartType} {sliceType : SliceType}
  {sliceParts : List ℕ}

theorem mem_partsToUse {type : SliceType} :
    cpt ∈ partsToUse type available ↔ cpt ∈ available ∧ cpt.sliceType = type := by
  induction available using reverseRecOn with
  | nil => simp [partsToUse]
  | append_singleton available part ih =>
    rw [mem_append, mem_singleton, or_and_right, ← ih, partsToUse, foldl_append, ← partsToUse,
      foldl_cons, foldl_nil]
    split
    case isTrue taken =>
      rw [mem_append, mem_singleton]
      refine or_congr_right ⟨?_, And.left⟩
      rintro rfl
      exact ⟨rfl, taken.1⟩
    case isFalse left =>
      refine (or_iff_left_of_imp ?_).symm
      rintro ⟨rfl, typed⟩
      by_contra absent
      exact left ⟨typed, absent⟩

theorem nodup_partsToUse (type : SliceType) (available : List ChunkPartType) :
    (partsToUse type available).Nodup := by
  refine foldlRecOn (motive := List.Nodup) available _ nodup_nil fun used distinct part _ => ?_
  split
  case isTrue taken =>
    rw [← concat_eq_append]
    exact distinct.concat taken.2
  case isFalse left => exact distinct

/-- A planner that was prepared with valid parts to use. -/
structure Prepared (planner : SliceReadPlanner) : Prop where
  known : planner.sliceType ≤ SliceType.kECLast
  requested : ∀ part ∈ planner.sliceParts,
    (⟨planner.sliceType, part⟩ : ChunkPartType).Valid
  requestedDistinct : planner.sliceParts.Nodup
  usable : ∀ cpt ∈ planner.weightedPartsToUse, cpt.sliceType = planner.sliceType ∧ cpt.Valid
  distinct : planner.weightedPartsToUse.Nodup

section Prepare

variable (planner : SliceReadPlanner) (known : sliceType ≤ SliceType.kECLast)
  (requested : ∀ part ∈ sliceParts, (⟨sliceType, part⟩ : ChunkPartType).Valid)
  (distinct : sliceParts.Nodup) (valid : ∀ cpt ∈ available, cpt.Valid)

include known requested distinct valid

theorem prepared_prepare : Prepared (planner.prepare sliceType sliceParts available) where
  known := known
  requested := requested
  requestedDistinct := distinct
  usable cpt member := by
    dsimp only [prepare] at member ⊢
    split at member
    · obtain ⟨there, typed⟩ := mem_partsToUse.mp (mem_mergeSort.mp member)
      exact ⟨typed, valid cpt there⟩
    · exact absurd member not_mem_nil
  distinct := by
    dsimp only [prepare]
    split
    · exact (mergeSort_perm _ _).nodup_iff.mpr (nodup_partsToUse _ _)
    · exact nodup_nil

/-- A planner that can read: the requested parts are among those to use, or there are enough
of these to recover them. -/
structure Ready (planner : SliceReadPlanner) : Prop extends Prepared planner where
  wanted : planner.requiredPartsAvailable = true →
    ∀ part ∈ planner.sliceParts, hasPart planner.weightedPartsToUse part = true
  enough : planner.requiredPartsAvailable = false →
    planner.sliceType.getNumberOfDataParts ≤ planner.weightedPartsToUse.length

theorem ready_prepare (possible : (planner.prepare sliceType sliceParts available).canRead = true) :
    Ready (planner.prepare sliceType sliceParts available) where
  toPrepared := planner.prepared_prepare known requested distinct valid
  wanted := by
    intro all part mem
    obtain ⟨cpt, there, eq⟩ := any_eq_true.mp (all_eq_true.mp all part mem)
    refine any_eq_true.mpr ⟨cpt, ?_, eq⟩
    dsimp only [prepare] at possible ⊢
    rw [if_pos possible]
    exact mem_mergeSort.mpr there
  enough := by
    intro lost
    dsimp only [prepare] at possible lost ⊢
    rw [if_pos possible, length_mergeSort]
    rw [lost] at possible
    exact of_decide_eq_true possible

end Prepare

/-! ## The layout -/

open ReadPlan (Laid)

/-- The state while parts are added: the plan is laid out up to the current offset, and the
parts added are the first ones to use. -/
structure Building (planner : SliceReadPlanner) (firstBlock blockCount : ℕ)
    (state : ReadPlan × ℕ) : Prop where
  fixed : state.1.sliceType = planner.sliceType ∧
    state.1.requestedParts = (planner.emptyPlan firstBlock blockCount).requestedParts ∧
    state.1.postprocessOperations = []
  laid : ∃ slot slots,
    Laid (state.1.withBufferSize state.2) firstBlock blockCount slot slots
  added : state.1.readOperations.map Prod.fst <+: planner.weightedPartsToUse

variable {planner : SliceReadPlanner} {firstBlock blockCount : ℕ} {state : ReadPlan × ℕ}

theorem requested_map_part (planner : SliceReadPlanner) (firstBlock blockCount : ℕ) :
    (planner.emptyPlan firstBlock blockCount).requestedParts.map (·.part) = planner.sliceParts := by
  simp [emptyPlan, Function.comp_def]

theorem length_requested (planner : SliceReadPlanner) (firstBlock blockCount : ℕ) :
    (planner.emptyPlan firstBlock blockCount).requestedParts.length
      = planner.sliceParts.length := by
  simp [emptyPlan]

theorem building_start (h : Prepared planner) :
    Building planner firstBlock blockCount (planner.emptyPlan firstBlock blockCount,
      (planner.emptyPlan firstBlock blockCount).requestedParts.length *
        (planner.emptyPlan firstBlock blockCount).bufferPartSize) where
  fixed := ⟨rfl, rfl, rfl⟩
  laid := by
    refine ⟨fun part => planner.sliceParts.findIdx (· = part), planner.sliceParts.length, ?_⟩
    have count := planner.length_requested firstBlock blockCount
    refine
      { partSize := rfl
        requested := fun info mem => ?_
        requestedDistinct :=
          (planner.requested_map_part firstBlock blockCount).symm ▸ h.requestedDistinct
        operations := fun entry mem => absurd mem not_mem_nil
        distinct := nodup_nil
        slotsDistinct := fun first mem => absurd mem not_mem_nil
        slotBound := fun entry mem => absurd mem not_mem_nil
        requestedSlot := fun i index => ?_
        otherSlot := fun entry mem => absurd mem not_mem_nil
        bufferSize := congrArg (· * _) count
        enoughSlots := count.le }
    · obtain ⟨part, there, rfl⟩ := mem_map.mp mem
      exact ⟨h.requested part there, rfl⟩
    · have lt : i < planner.sliceParts.length := count ▸ index
      have part : ((planner.emptyPlan firstBlock blockCount).requestedParts.getD i ⟨0, 0⟩).part
          = planner.sliceParts[i] := by
        simp [emptyPlan, getElem?_eq_getElem lt]
      change planner.sliceParts.findIdx (fun x => x =
        ((planner.emptyPlan firstBlock blockCount).requestedParts.getD i ⟨0, 0⟩).part) = i
      rw [part]
      exact findIdx_eq lt |>.mpr ⟨by simp, fun j prev => by
        simpa using fun eq => (Nat.ne_of_lt prev)
          ((List.Nodup.getElem_inj_iff h.requestedDistinct).mp eq)⟩
  added := ⟨planner.weightedPartsToUse, rfl⟩

/-- The part added next is none of those added before. -/
theorem Building.fresh (building : Building planner firstBlock blockCount state)
    (h : Prepared planner)
    (next : state.1.readOperations.map Prod.fst ++ [cpt] <+: planner.weightedPartsToUse) :
    cpt.sliceType = planner.sliceType ∧ cpt.Valid ∧
      ∀ entry ∈ state.1.readOperations, entry.1.slicePart ≠ cpt.slicePart := by
  have mem : cpt ∈ planner.weightedPartsToUse := next.subset (by simp)
  obtain ⟨typed, valid⟩ := h.usable cpt mem
  refine ⟨typed, valid, fun entry there eq => ?_⟩
  have distinct := h.distinct.sublist next.sublist
  have prev : entry.1 ∈ state.1.readOperations.map Prod.fst := mem_map.mpr ⟨entry, there, rfl⟩
  have entryTyped := (h.usable entry.1 (building.added.subset prev)).1
  have equal : entry.1 = cpt := by
    cases first : entry.1
    cases cpt
    simp_all
  exact (nodup_append.mp distinct).2.2 _ prev _ (mem_singleton.mpr rfl) equal

/-- A plan with one more read, whose place is one that no other part has. -/
theorem Laid.append {plan : ReadPlan} {slot : ℕ → ℕ} {slots : ℕ}
    (laid : Laid plan firstBlock blockCount slot slots) (slot' : ℕ → ℕ) (slots' : ℕ)
    (typed : cpt.sliceType = plan.sliceType) (valid : cpt.Valid)
    (fresh : ∀ entry ∈ plan.readOperations, entry.1.slicePart ≠ cpt.slicePart) (wave : ℕ)
    (eq : ∀ part, part ≠ cpt.slicePart → slot' part = slot part)
    (requestedSame : cpt.slicePart ∈ plan.requestedParts.map (·.part) →
      slot' cpt.slicePart = slot cpt.slicePart)
    (otherwise : cpt.slicePart ∉ plan.requestedParts.map (·.part) →
      plan.requestedParts.length ≤ slot' cpt.slicePart)
    (free : ∀ entry ∈ plan.readOperations, slot entry.1.slicePart ≠ slot' cpt.slicePart)
    (lt : slot' cpt.slicePart < slots') (grown : slots ≤ slots') :
    Laid ((plan.withOperation cpt ⟨firstBlock * sfsBlockSize,
        ReadPlan.sizeIn cpt firstBlock blockCount, slot' cpt.slicePart * plan.bufferPartSize,
        wave⟩).withBufferSize (slots' * plan.bufferPartSize)) firstBlock blockCount slot'
      slots' := by
  have old : ∀ entry ∈ plan.readOperations, slot' entry.1.slicePart = slot entry.1.slicePart :=
    fun entry mem => eq _ (fresh entry mem)
  refine
    { partSize := laid.partSize
      requested := laid.requested
      requestedDistinct := laid.requestedDistinct
      operations := fun entry mem => ?_
      distinct := ?_
      slotsDistinct := fun first memberFirst second memberSecond equal => ?_
      slotBound := fun entry mem => ?_
      requestedSlot := fun i index => ?_
      otherSlot := fun entry mem absent => ?_
      bufferSize := rfl
      enoughSlots := laid.enoughSlots.trans grown }
  · rcases mem_append.mp mem with prev | last
    · rw [old entry prev]
      exact laid.operations entry prev
    · rw [mem_singleton.mp last]
      exact ⟨typed, valid, rfl, rfl, rfl⟩
  · change ((plan.readOperations ++ [_]).map _).Nodup
    rw [map_append]
    refine nodup_append.mpr ⟨laid.distinct, nodup_singleton _, ?_⟩
    intro first prev second last
    obtain ⟨entry, mem, rfl⟩ := mem_map.mp prev
    rw [mem_singleton.mp last]
    exact fresh entry mem
  · rcases mem_append.mp memberFirst with beforeFirst | lastFirst <;>
      rcases mem_append.mp memberSecond with beforeSecond | lastSecond
    · rw [old first beforeFirst, old second beforeSecond] at equal
      exact laid.slotsDistinct first beforeFirst second beforeSecond equal
    · rw [mem_singleton.mp lastSecond] at equal ⊢
      rw [old first beforeFirst] at equal
      exact absurd equal (free first beforeFirst)
    · rw [mem_singleton.mp lastFirst] at equal ⊢
      rw [old second beforeSecond] at equal
      exact absurd equal.symm (free second beforeSecond)
    · rw [mem_singleton.mp lastFirst, mem_singleton.mp lastSecond]
  · rcases mem_append.mp mem with prev | last
    · rw [old entry prev]
      exact (laid.slotBound entry prev).trans_le grown
    · rw [mem_singleton.mp last]
      exact lt
  · have kept := laid.requestedSlot i index
    by_cases here : (plan.requestedParts.getD i ⟨0, 0⟩).part = cpt.slicePart
    · have requested : cpt.slicePart ∈ plan.requestedParts.map (·.part) :=
        mem_map.mpr ⟨_, ReadPlan.getD_mem index, here⟩
      change slot' (plan.requestedParts.getD i ⟨0, 0⟩).part = i
      rw [here, requestedSame requested, ← here]
      exact kept
    · change slot' (plan.requestedParts.getD i ⟨0, 0⟩).part = i
      rw [eq _ here]
      exact kept
  · rcases mem_append.mp mem with prev | last
    · rw [old entry prev]
      exact laid.otherSlot entry prev absent
    · rw [mem_singleton.mp last] at absent ⊢
      exact otherwise absent

/-- The place of a requested part is one that no part added before has. -/
theorem Laid.free_of_requested {plan : ReadPlan} {slot : ℕ → ℕ} {slots index : ℕ}
    (laid : Laid plan firstBlock blockCount slot slots) (lt : index < plan.requestedParts.length)
    (part : (plan.requestedParts.getD index ⟨0, 0⟩).part = cpt.slicePart)
    (fresh : ∀ entry ∈ plan.readOperations, entry.1.slicePart ≠ cpt.slicePart) :
    ∀ entry ∈ plan.readOperations, slot entry.1.slicePart ≠ slot cpt.slicePart := by
  intro entry mem equal
  have place : slot cpt.slicePart = index := by
    rw [← part]
    exact laid.requestedSlot index lt
  by_cases among : entry.1.slicePart ∈ plan.requestedParts.map (·.part)
  · obtain ⟨info, there, samePart⟩ := mem_map.mp among
    obtain ⟨j, indexJ, rfl⟩ := getElem_of_mem there
    have infoJ : (plan.requestedParts.getD j ⟨0, 0⟩) = plan.requestedParts[j] := by
      rw [getD_eq_getElem?_getD, getElem?_eq_getElem indexJ, Option.getD_some]
    have placeJ : slot entry.1.slicePart = j := by
      rw [← samePart, ← infoJ]
      exact laid.requestedSlot j indexJ
    obtain rfl : j = index := placeJ.symm.trans (equal.trans place)
    exact fresh entry mem (by rw [← samePart, ← infoJ, part])
  · have late : plan.requestedParts.length ≤ slot entry.1.slicePart :=
      laid.otherSlot entry mem among
    omega

section

variable (building : Building planner firstBlock blockCount state) (h : Prepared planner)
  (next : state.1.readOperations.map Prod.fst ++ [cpt] <+: planner.weightedPartsToUse) (wave : ℕ)
include building h next

/-- A part that was not requested gets the next place, which is a new one. -/
theorem Building.addPart_other (absent : cpt.slicePart ∉ planner.sliceParts) :
    Building planner firstBlock blockCount
      (state.1.withOperation cpt ⟨firstBlock * sfsBlockSize,
        ReadPlan.sizeIn cpt firstBlock blockCount, state.2, wave⟩,
        state.2 + blockCount * sfsBlockSize) := by
  obtain ⟨typed, valid, fresh⟩ := building.fresh h next
  obtain ⟨sameType, sameRequested, noProcessing⟩ := building.fixed
  obtain ⟨slot, slots, laid⟩ := building.laid
  have parts : state.1.requestedParts.map (·.part) = planner.sliceParts := by
    rw [sameRequested, requested_map_part]
  have offset : state.2 = slots * state.1.bufferPartSize := laid.bufferSize
  have partSize : state.1.bufferPartSize = blockCount * sfsBlockSize := laid.partSize
  let slot' := Function.update slot cpt.slicePart slots
  have place : slot' cpt.slicePart = slots := Function.update_self _ _ _
  have appended := Laid.append laid slot' (slots + 1) (typed.trans sameType.symm) valid fresh
    wave (fun part other => Function.update_of_ne other _ _)
    (fun requested => absurd (parts ▸ requested) absent)
    (fun _ => place.symm ▸ laid.enoughSlots)
    (fun entry mem => place.symm ▸ Nat.ne_of_lt (laid.slotBound entry mem))
    (place.symm ▸ Nat.lt_succ_self slots) (Nat.le_succ slots)
  have size : state.2 + blockCount * sfsBlockSize = (slots + 1) * state.1.bufferPartSize := by
    rw [offset, partSize]
    ring
  have position : state.2 = slot' cpt.slicePart * state.1.bufferPartSize := by
    rw [place, offset]
  refine ⟨⟨sameType, sameRequested, noProcessing⟩, ⟨slot', slots + 1, ?_⟩, ?_⟩
  · rw [size, position]
    exact appended
  · exact map_append ▸ next

/-- A requested part gets the place of its order. -/
theorem Building.addPart_requested {index : ℕ} (bound : index < planner.sliceParts.length)
    (eq : planner.sliceParts[index] = cpt.slicePart) :
    Building planner firstBlock blockCount
      (state.1.withOperation cpt ⟨firstBlock * sfsBlockSize,
        ReadPlan.sizeIn cpt firstBlock blockCount, index * sfsBlockSize * blockCount, wave⟩,
        state.2) := by
  obtain ⟨typed, valid, fresh⟩ := building.fresh h next
  obtain ⟨sameType, sameRequested, noProcessing⟩ := building.fixed
  obtain ⟨slot, slots, laid⟩ := building.laid
  have offset : state.2 = slots * state.1.bufferPartSize := laid.bufferSize
  have partSize : state.1.bufferPartSize = blockCount * sfsBlockSize := laid.partSize
  have index_lt : index < state.1.requestedParts.length := by
    rw [sameRequested]
    simpa [emptyPlan] using bound
  have part : (state.1.requestedParts.getD index ⟨0, 0⟩).part = cpt.slicePart := by
    rw [sameRequested]
    simpa [emptyPlan, getElem?_eq_getElem bound] using eq
  have place : slot cpt.slicePart = index := by
    rw [← part]
    exact laid.requestedSlot index index_lt
  have requested : cpt.slicePart ∈ state.1.requestedParts.map (·.part) :=
    mem_map.mpr ⟨_, ReadPlan.getD_mem index_lt, part⟩
  have appended := Laid.append laid slot slots (typed.trans sameType.symm) valid fresh wave
    (fun _ _ => rfl) (fun _ => rfl) (fun absent => absurd requested absent)
    (Laid.free_of_requested laid index_lt part fresh)
    (place.symm ▸ index_lt.trans_le laid.enoughSlots) le_rfl
  have position : index * sfsBlockSize * blockCount
      = slot cpt.slicePart * state.1.bufferPartSize := by
    rw [place, partSize]
    ring
  refine ⟨⟨sameType, sameRequested, noProcessing⟩, ⟨slot, slots, ?_⟩, ?_⟩
  · rw [position, offset]
    exact appended
  · exact map_append ▸ next

/-- Adding a part keeps the plan laid out. -/
theorem Building.addPart : Building planner firstBlock blockCount
        (planner.addPart firstBlock blockCount wave state cpt) ∧
      (planner.addPart firstBlock blockCount wave state cpt).1.readOperations.map Prod.fst
        = state.1.readOperations.map Prod.fst ++ [cpt] := by
  cases found : planner.sliceParts.findIdx? (· = cpt.slicePart) with
  | none =>
    have absent : cpt.slicePart ∉ planner.sliceParts := fun mem => by
      simpa using findIdx?_eq_none_iff.mp found _ mem
    simp only [SliceReadPlanner.addPart, found]
    exact ⟨building.addPart_other h next wave absent, map_append⟩
  | some index =>
    obtain ⟨bound, eq, -⟩ := findIdx?_eq_some_iff_getElem.mp found
    simp only [SliceReadPlanner.addPart, found]
    exact ⟨building.addPart_requested h next wave bound (of_decide_eq_true eq), map_append⟩

end

/-- Adding the next parts keeps the plan laid out. -/
theorem Building.addParts (building : Building planner firstBlock blockCount state)
    (h : Prepared planner) (partsCount wave : ℕ) : Building planner firstBlock blockCount
        (planner.addParts firstBlock blockCount partsCount wave state) ∧
      (planner.addParts firstBlock blockCount partsCount wave state).1.readOperations.map Prod.fst
        = planner.weightedPartsToUse.take (state.1.readOperations.length + partsCount) ∧
      (planner.addParts firstBlock blockCount partsCount wave state).1.readBufferSize
        = (planner.addParts firstBlock blockCount partsCount wave state).2 := by
  -- the loop, over any list of parts that come next
  have loop : ∀ (parts : List ChunkPartType) (state : ReadPlan × ℕ),
      Building planner firstBlock blockCount state →
      state.1.readOperations.map Prod.fst ++ parts <+: planner.weightedPartsToUse →
      Building planner firstBlock blockCount
          (parts.foldl (planner.addPart firstBlock blockCount wave) state) ∧
        (parts.foldl (planner.addPart firstBlock blockCount wave) state).1.readOperations.map
          Prod.fst = state.1.readOperations.map Prod.fst ++ parts := by
    intro parts
    induction parts with
    | nil => exact fun state building _ => ⟨building, (append_nil _).symm⟩
    | cons cpt rest ih =>
      intro state building next
      have first : state.1.readOperations.map Prod.fst ++ [cpt]
          <+: planner.weightedPartsToUse := by
        refine List.IsPrefix.trans ⟨rest, ?_⟩ next
        simp
      obtain ⟨stepped, order⟩ := building.addPart h first wave
      obtain ⟨built, final⟩ := ih _ stepped (by rw [order]; simpa using next)
      refine ⟨built, ?_⟩
      rw [foldl_cons, final, order]
      simp
  obtain ⟨tail, whole⟩ := building.added
  have dropped : planner.weightedPartsToUse.drop state.1.readOperations.length = tail := by
    rw [← whole]
    simp
  obtain ⟨built, order⟩ := loop ((planner.weightedPartsToUse.drop
      state.1.readOperations.length).take partsCount) state building (by
    rw [dropped, ← whole]
    exact (prefix_append_right_inj _).mpr ( take_prefix _ _))
  refine ⟨⟨built.fixed, built.laid, built.added⟩, ?_, rfl⟩
  refine order.trans ?_
  have all : (state.1.readOperations.map Prod.fst).take
      (state.1.readOperations.length + partsCount) = state.1.readOperations.map Prod.fst :=
    take_of_length_le (by simp)
  rw [dropped, ← whole, take_append, all, length_map, Nat.add_sub_cancel_left]

theorem Building.addRest (h : Prepared planner) (fuel wave : ℕ)
    {state : ReadPlan × ℕ} (building : Building planner firstBlock blockCount state)
    (sized : state.1.readBufferSize = state.2) : Building planner firstBlock blockCount
        (planner.addRest firstBlock blockCount fuel wave state) ∧
      (planner.addRest firstBlock blockCount fuel wave state).1.readBufferSize
        = (planner.addRest firstBlock blockCount fuel wave state).2 ∧ state.1.readOperations.length
        ≤ (planner.addRest firstBlock blockCount fuel wave state).1.readOperations.length := by
  induction fuel generalizing wave state with
  | zero => exact ⟨building, sized, le_rfl⟩
  | succ fuel ih =>
    unfold SliceReadPlanner.addRest
    split
    · obtain ⟨built, order, size⟩ := building.addParts h
        (min 2 (planner.weightedPartsToUse.length - state.1.readOperations.length)) wave
      obtain ⟨final, finalSize, more⟩ := ih (wave + 1) built size
      refine ⟨final, finalSize, le_trans ?_ more⟩
      have := congrArg length order
      rw [length_map, length_take] at this
      omega
    · exact ⟨building, sized, le_rfl⟩

theorem Building.addExtraParts (h : Prepared planner)
    (building : Building planner firstBlock blockCount state)
    (sized : state.1.readBufferSize = state.2) : Building planner firstBlock blockCount
        (planner.addExtraParts firstBlock blockCount state) ∧
      (planner.addExtraParts firstBlock blockCount state).1.readBufferSize
        = (planner.addExtraParts firstBlock blockCount state).2 ∧ state.1.readOperations.length
        ≤ (planner.addExtraParts firstBlock blockCount state).1.readOperations.length := by
  unfold SliceReadPlanner.addExtraParts
  dsimp only
  split
  · obtain ⟨built, order, size⟩ := building.addParts h
      (min (planner.overuse planner.sliceType.getNumberOfDataParts)
        planner.weightedPartsToUse.length - state.1.readOperations.length) 1
    obtain ⟨final, finalSize, more⟩ := built.addRest h planner.weightedPartsToUse.length 2 size
    refine ⟨final, finalSize, le_trans ?_ more⟩
    have := congrArg length order
    rw [length_map, length_take] at this
    omega
  · exact building.addRest h _ _ sized

/-! ## The plan -/

theorem Prepared.partition (h : Prepared planner) : Prepared planner.partition where
  known := h.known
  requested := h.requested
  requestedDistinct := h.requestedDistinct
  usable cpt member := by
    refine h.usable cpt ?_
    rcases mem_append.mp member with wanted | extra
    · exact (mem_filter.mp wanted).1
    · exact (mem_filter.mp extra).1
  distinct := by
    refine nodup_append.mpr
      ⟨h.distinct.filter _, h.distinct.filter _, fun first wanted second extra => ?_⟩
    rintro rfl
    simp_all

/-- What the building of a plan ends with. -/
structure Built (planner : SliceReadPlanner) (firstBlock blockCount : ℕ) (plan : ReadPlan) :
    Prop where
  fixed : plan.sliceType = planner.sliceType ∧
    plan.requestedParts = (planner.emptyPlan firstBlock blockCount).requestedParts ∧
    plan.postprocessOperations = []
  laid : ∃ slot slots, Laid plan firstBlock blockCount slot slots

theorem Building.built (h : Building planner firstBlock blockCount state)
    (sized : state.1.readBufferSize = state.2) : Built planner firstBlock blockCount state.1 := by
  refine ⟨h.fixed, ?_⟩
  obtain ⟨slot, slots, laid⟩ := h.laid
  rw [← sized] at laid
  exact ⟨slot, slots, laid⟩

/-- Reading the usable parts that were requested finishes the plan, when all of them are. -/
theorem finished_of_requested {parts : List ChunkPartType}
    (wanted : ∀ part ∈ planner.sliceParts, hasPart planner.weightedPartsToUse part = true)
    (front : planner.weightedPartsToUse.filter (fun cpt => cpt.slicePart ∈ planner.sliceParts)
      ⊆ parts) {plan : ReadPlan}
    (eq : plan.requestedParts = (planner.emptyPlan firstBlock blockCount).requestedParts) :
    plan.isReadingFinished parts = true := by
  refine Bool.or_eq_true_iff.mpr (.inr (all_eq_true.mpr fun info mem => ?_))
  rw [eq] at mem
  obtain ⟨part, requested, rfl⟩ := mem_map.mp mem
  obtain ⟨cpt, there, equal⟩ := any_eq_true.mp (wanted part requested)
  refine any_eq_true.mpr ⟨cpt, front (mem_filter.mpr ⟨there, ?_⟩), equal⟩
  rw [of_decide_eq_true equal]
  exact decide_eq_true requested

/-- The parts of a plan are the first ones to use: with lost parts enough of them to recover
these, and otherwise the requested ones before all others. -/
theorem building_buildPlanFor (h : Ready planner) (firstBlock blockCount : ℕ)
    (addExtra : Bool) : ∃ used state, (used = planner ∨ used = planner.partition) ∧
      Building used firstBlock blockCount state ∧ state.1.readBufferSize = state.2 ∧
      planner.buildPlanFor firstBlock blockCount addExtra = state.1 ∧
      (planner.requiredPartsAvailable = false →
        planner.sliceType.getNumberOfDataParts ≤ state.1.readOperations.length) ∧
      (planner.requiredPartsAvailable = true →
        planner.weightedPartsToUse.filter (fun cpt => cpt.slicePart ∈ planner.sliceParts)
          ⊆ state.1.readOperations.map Prod.fst) := by
  have prepared := h.toPrepared
  unfold buildPlanFor
  split
  case isTrue lost =>
    have notAvailable : planner.requiredPartsAvailable = false := by simpa using lost
    obtain ⟨basic, order, size⟩ := (building_start prepared).addParts prepared
      (max (planner.overuse planner.sliceType.getNumberOfDataParts)
        planner.sliceType.getNumberOfDataParts) 0
    obtain ⟨final, finalSize, more⟩ := basic.addExtraParts prepared size
    refine ⟨planner, _, .inl rfl, final, finalSize, rfl, fun _ => le_trans ?_ more,
      fun required => absurd required (by simp [notAvailable])⟩
    have count := congrArg length order
    rw [length_map, length_take] at count
    rw [count]
    have := h.enough notAvailable
    exact le_min (by change _ ≤ 0 + _; exact (le_max_right _ _).trans (Nat.le_add_left _ _)) this
  case isFalse available =>
    have required : planner.requiredPartsAvailable = true := by simpa using available
    have partitioned := prepared.partition
    set front := planner.weightedPartsToUse.filter fun cpt => cpt.slicePart ∈ planner.sliceParts
      with frontEq
    obtain ⟨basic, order, size⟩ :=
      (@building_start _ firstBlock blockCount partitioned).addParts partitioned front.length 0
    have first : front <+: planner.partition.weightedPartsToUse := prefix_append _ _
    have none : (planner.partition.emptyPlan firstBlock blockCount).readOperations.length = 0 := rfl
    rw [none, Nat.zero_add, ← prefix_iff_eq_take.mp first] at order
    split
    case isTrue more =>
      obtain ⟨final, finalSize, grown⟩ := basic.addExtraParts partitioned size
      have count := congrArg length order
      rw [length_map] at count
      have longer : front <+: _ := prefix_of_prefix_length_le first final.added (by
        rw [length_map]
        exact count.symm.le.trans grown)
      exact ⟨_, _, .inr rfl, final, finalSize, rfl,
        fun lost => absurd lost (by simp [required]), fun _ => longer.subset⟩
    case isFalse done =>
      exact ⟨_, _, .inr rfl, basic, size, rfl, fun lost => absurd lost (by simp [required]),
        fun _ cpt mem => (congrArg (cpt ∈ ·) order).mpr mem⟩

/-- The plan is laid out for the requested parts, and reading all of its parts finishes it. -/
theorem built_buildPlanFor (h : Ready planner) (firstBlock blockCount : ℕ) (addExtra : Bool) :
    Built planner firstBlock blockCount (planner.buildPlanFor firstBlock blockCount addExtra) ∧
      (planner.buildPlanFor firstBlock blockCount addExtra).isReadingFinished
        ((planner.buildPlanFor firstBlock blockCount addExtra).readOperations.map Prod.fst)
        = true := by
  obtain ⟨used, state, either, building, sized, eq, enough, wanted⟩ :=
    building_buildPlanFor h firstBlock blockCount addExtra
  rw [eq]
  have built : Built planner firstBlock blockCount state.1 := by
    have built := building.built sized
    rcases either with rfl | rfl
    · exact built
    · exact ⟨built.fixed, built.laid⟩
  refine ⟨built, ?_⟩
  cases available : planner.requiredPartsAvailable with
  | false =>
    refine Bool.or_eq_true_iff.mpr (.inl (decide_eq_true ?_))
    rw [built.fixed.1, length_map]
    exact enough available
  | true => exact finished_of_requested (h.wanted available) (wanted available) built.fixed.2.1

end SliceReadPlanner

end LeilFS.Reading
