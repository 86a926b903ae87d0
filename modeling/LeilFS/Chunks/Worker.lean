/-
Module: LeilFS.Chunks.Worker
Purpose: How the worker chooses a part to remove, and that no job of it takes the last parts a
  chunk can be read from.
Trusted boundary: none
-/
import LeilFS.Chunks.Assignment
import LeilFS.Chunks.GoalDefinition
import LeilFS.Chunks.References

namespace LeilFS.Chunks

open Calculator List

/-! ## Parts that may be removed -/

open LabelledGoal

section Removal

variable {copies : List PartCopy} {copy : PartCopy}

/-- A slice with at most as many copies of its parts as there are says truly that there are
enough. -/
theorem recoverable_of_bounded {slice : Slice}
    (sized : slice.copies.length = slice.type.expectedParts)
    (bounded : ∀ part < slice.type.expectedParts,
      slice.copies.getD part 0 ≤ copiesOf copies ⟨slice.type, part⟩)
    (enough : 0 ≤ slice.evalSliceRedundancyLevel) : Recoverable (copies.map (·.type)) := by
  have counts : slice.copies =
      (List.range slice.type.expectedParts).map fun part => slice.copies.getD part 0 := by
    refine ext_getElem (by simp [sized]) fun part inside _ => ?_
    simp [inside]
  have parts : slice.copies.countP (0 < ·) ≤ distinctParts (copies.map (·.type)) slice.type := by
    rw [counts, List.countP_map, distinctParts_eq]
    refine List.countP_mono_left fun part inside some => decide_eq_true ?_
    exact (of_decide_eq_true some).trans_le (bounded part (mem_range.mp inside))
  unfold Slice.evalSliceRedundancyLevel at enough
  split at enough
  next standard =>
    refine ⟨slice.type, .inl standard, le_trans ?_ parts⟩
    obtain ⟨count, mem, some⟩ :=
      List.sum_pos_iff_exists_pos_nat.mp (show 0 < slice.copies.sum by omega)
    rw [SliceType.isStandard_iff.mp standard]
    exact List.countP_pos_iff.mpr ⟨count, mem, decide_eq_true some⟩
  next =>
    split at enough
    next sliced =>
      refine ⟨slice.type, .inr (by simpa using sliced), ?_⟩
      omega
    · exact absurd enough (by decide)

/-- Without one of its copies a part has one copy less. -/
theorem copiesOf_erase (mem : copy ∈ copies) (type : ChunkPartType) :
    copiesOf copies type =
      copiesOf (copies.erase copy) type + if copy.type = type then 1 else 0 := by
  have eq : copiesOf copies type = copiesOf (copy :: copies.erase copy) type :=
    (((perm_cons_erase mem).filter _).map _).length_eq
  rw [eq, copiesOf_cons]

variable {slice : LabelledSlice}

/-- A slice without a copy shows at most the copies that are left.  A count of zero has wrapped,
and there are many more copies than it shows. -/
theorem removeCopy_bounded (there : copy ∈ copies) (mem : slice ∈ available copies)
    (eq : slice.type = copy.type.sliceType) {part : Nat} (lt : part < slice.type.expectedParts) :
    ((slice.removeCopy copy.type.slicePart copy.label).parts.getD part []).countLabels ≤
      copiesOf (copies.erase copy) ⟨slice.type, part⟩ := by
  have labels := getD_parts_available copies mem lt
  have sized := (shaped_available copies).sized slice mem
  have count := copiesOf_erase there ⟨slice.type, part⟩
  rw [getD_eq_getElem?_getD, getElem?_eq_getElem (sized ▸ lt), Option.getD_some] at labels
  unfold LabelledSlice.removeCopy
  simp only [getD_eq_getElem?_getD, getElem?_modify, getElem?_eq_getElem (sized ▸ lt), labels]
  by_cases samePart : copy.type.slicePart = part
  · have isType : copy.type = ⟨slice.type, part⟩ := by rw [eq, ← samePart]
    rw [if_pos isType] at count
    have inPart : copy.label ∈ labelsOf copies ⟨slice.type, part⟩ :=
      mem_map.mpr ⟨copy, mem_filter.mpr ⟨there, decide_eq_true isType⟩, rfl⟩
    have moved := Labels.countLabels_decrement (Labels.find_ofList_ne_none _ inPart)
    have bound := @Labels.countLabels_ofList_le copy.label (labelsOf copies ⟨slice.type, part⟩)
    have pos := count_pos_iff.mpr inPart
    rw [Labels.copiesOn_ofList, UInt16.toNat_sub, UInt16.toNat_ofNat'] at moved
    have one : (1 : UInt16).toNat = 1 := rfl
    unfold copiesOf at count ⊢
    simp only [samePart, if_true, Option.map_eq_map, Option.map_some, Option.getD_some]
    omega
  · have shown := countLabels_le_copiesOf copies ⟨slice.type, part⟩
    have notType : copy.type ≠ ⟨slice.type, part⟩ := fun isType =>
      samePart (congrArg ChunkPartType.slicePart isType)
    rw [if_neg notType] at count
    simp only [samePart]
    exact shown.trans (Nat.le_of_eq count)

theorem getD_map_countLabels (parts : List Labels) (part : Nat) :
    (parts.map Labels.countLabels).getD part 0 = (parts.getD part []).countLabels := by
  rw [getD_eq_getElem?_getD, getD_eq_getElem?_getD, getElem?_map]
  cases parts[part]? <;> rfl

/-- What a slice without a copy is worth, the copies that are left are worth. -/
theorem recoverable_of_removeCopy (there : copy ∈ copies)
    (mem : slice ∈ available copies) (eq : slice.type = copy.type.sliceType)
    (enough : 0 ≤ (slice.removeCopy copy.type.slicePart
      copy.label).toSlice.evalSliceRedundancyLevel) :
    Recoverable ((copies.erase copy).map (·.type)) := by
  have sized := (shaped_available copies).sized slice mem
  refine recoverable_of_bounded ?_ (fun part within => ?_) enough
  · simp [LabelledSlice.toSlice, LabelledSlice.removeCopy, sized]
  · exact (getD_map_countLabels _ part).trans_le (removeCopy_bounded there mem eq within)

/-- Another slice that is readable stays so. -/
theorem recoverable_erase_of_other (there : copy ∈ copies) (mem : slice ∈ available copies)
    (ne : slice.type ≠ copy.type.sliceType) (enough : 0 ≤ slice.toSlice.evalSliceRedundancyLevel) :
    Recoverable ((copies.erase copy).map (·.type)) := by
  refine recoverable_of_bounded ?_ (fun part within => ?_) enough
  · simp [LabelledSlice.toSlice, (shaped_available copies).sized slice mem]
  · have count := copiesOf_erase there ⟨slice.type, part⟩
    rw [if_neg fun eq => ne (congrArg ChunkPartType.sliceType eq).symm] at count
    refine (getD_map_countLabels _ part).trans_le ?_
    rw [getD_parts_available copies mem within]
    exact (countLabels_le_copiesOf copies _).trans (Nat.le_of_eq count)

/-- More than two slices' worth: some other slice is readable. -/
theorem exists_other_slice {goal : LabelledGoal} (h : Shaped goal)
    (more : 2 < 2 * goal.countP (0 < ·.toSlice.evalSliceRedundancyLevel) +
      goal.countP (·.toSlice.evalSliceRedundancyLevel = 0)) :
    ∃ other ∈ goal, other.type ≠ slice.type ∧ 0 ≤ other.toSlice.evalSliceRedundancyLevel := by
  by_contra none
  push Not at none
  have once : goal.countP (·.type = slice.type) ≤ 1 := by
    have count := List.nodup_iff_count_le_one.mp h.ordered.nodup slice.type
    rw [List.count, List.countP_map] at count
    exact (List.countP_mono_left fun other _ eq => by simpa using eq).trans count
  have exclusive : ∀ slices : LabelledGoal, slices ⊆ goal →
      slices.countP (0 < ·.toSlice.evalSliceRedundancyLevel) +
          slices.countP (·.toSlice.evalSliceRedundancyLevel = 0) ≤
        slices.countP (·.type = slice.type) := by
    intro slices members
    induction slices with
    | nil => exact Nat.le_refl _
    | cons other slices ih =>
      obtain ⟨here, later⟩ := cons_subset.mp members
      have rest := ih later
      simp only [countP_cons, decide_eq_true_iff]
      by_cases eq : other.type = slice.type
      · split <;> split <;> omega
      · have lost := none other here eq
        rw [if_neg eq, if_neg (Int.not_lt.mpr (Int.le_of_lt lost)), if_neg (Int.ne_of_lt lost)]
        exact rest
  have total := exclusive goal fun _ mem => mem
  omega

theorem SliceType.two_lt_expectedParts {type : SliceType} (sliced : type.isXor ∨ type.isEC) :
    2 < type.expectedParts := by
  rcases sliced with isXor | isEC
  · obtain ⟨low, high⟩ := Bool.and_eq_true_iff.mp isXor
    have atLeast : 2 ≤ (type : Nat) := of_decide_eq_true low
    have atMost : (type : Nat) ≤ 9 := of_decide_eq_true high
    interval_cases type <;> decide
  · have low := of_decide_eq_true (Bool.and_eq_true_iff.mp isEC).1
    unfold SliceType.expectedParts
    rw [if_neg (Nat.not_lt.mpr low)]
    omega

/-- A slice that asks for a single copy is a whole chunk. -/
theorem LabelledSlice.Sound.isStandard (h : slice.Sound)
    (readable : slice.type.Readable) (eq : slice.getExpectedCopies = 1) :
    slice.type.isStandard = true := by
  have atLeast : slice.parts.length ≤ slice.getExpectedCopies := by
    have pos : ∀ count ∈ slice.parts.map Labels.countLabels, 1 ≤ count := by
      intro count mem
      obtain ⟨part, inside, rfl⟩ := mem_map.mp mem
      exact (h.asking part inside).asks
    have counts := length_le_sum_of_one_le _ pos
    rwa [length_map] at counts
  rw [h.sized] at atLeast
  refine readable.resolve_right fun sliced => ?_
  have parts := SliceType.two_lt_expectedParts sliced
  omega

theorem nonneg_of_keepsSingleCopy {calculator : Calculator}
    (sound : ∀ slice ∈ calculator.target, slice.Sound) {left : LabelledSlice}
    (h : left.type.Readable) (single : calculator.keepsSingleCopy left = true) :
    0 ≤ left.toSlice.evalSliceRedundancyLevel := by
  unfold keepsSingleCopy at single
  cases found : calculator.target.find left.type with
  | none => rw [found] at single; cases single
  | some asked =>
    rw [found, Option.any_some, Bool.and_eq_true] at single
    have sameType : asked.type = left.type := by
      have eq := find?_some found
      exact of_decide_eq_true eq
    have standard := (sound asked (mem_of_find?_eq_some found)).isStandard
      (sameType ▸ h) (of_decide_eq_true single.1)
    rw [sameType] at standard
    have some : 1 ≤ left.getExpectedCopies := of_decide_eq_true single.2
    have worth : left.toSlice.evalSliceRedundancyLevel = left.getExpectedCopies - 1 :=
      if_pos standard
    omega

/-- A part that may be removed leaves enough parts. -/
theorem canRemovePart_recoverable {target : LabelledGoal} (some : target ≠ [])
    (sound : ∀ slice ∈ target, slice.Sound) (there : copy ∈ copies)
    (allowed : canRemovePart ⟨available copies, target⟩ copy.type.sliceType
      copy.type.slicePart copy.label = true) : Recoverable ((copies.erase copy).map (·.type)) := by
  have shaped := shaped_available copies
  unfold canRemovePart removePartBasicTest at allowed
  rw [if_neg some] at allowed
  cases found : (available copies).find copy.type.sliceType with
  | none => rw [found] at allowed; cases allowed
  | some slice =>
    obtain ⟨mem, eq⟩ := shaped.ordered.find_eq_some_iff.mp found
    rw [found] at allowed
    dsimp only at allowed
    by_cases low : redundancyLevel ⟨available copies, target⟩ < 1
    · rw [if_pos low] at allowed
      cases allowed
    rw [if_neg low] at allowed
    by_cases more : 2 < 2 * safeSlices ⟨available copies, target⟩ +
        endangeredSlices ⟨available copies, target⟩
    · obtain ⟨other, otherMember, ne, enough⟩ := exists_other_slice shaped more
      exact recoverable_erase_of_other there otherMember (eq ▸ ne) enough
    rw [if_neg more] at allowed
    by_cases lost : slice.toSlice.evalSliceRedundancyLevel < 0
    · -- the slice is of no use, so another one is readable
      obtain ⟨other, otherMember, enough⟩ :=
        (evalRedundancyLevel_nonneg_iff_exists (available copies)).2.mp
          (Int.le_of_lt (Int.not_lt.mp low))
      refine recoverable_erase_of_other there otherMember (fun sameType => ?_) enough
      have isSlice := shaped.ordered.find_eq_some_iff.mpr ⟨otherMember, sameType⟩
      cases Option.some.inj (isSlice.symm.trans found)
      exact absurd lost (Int.not_lt.mpr enough)
    rw [if_neg lost] at allowed
    by_cases safe : safeSlices ⟨available copies, target⟩ ≠ 1
    · rw [if_pos safe] at allowed
      cases allowed
    rw [if_neg safe] at allowed
    have readable := slice.toSlice.readable_of_nonneg (Int.not_lt.mp lost)
    refine recoverable_of_removeCopy there mem eq ?_
    rcases Bool.or_eq_true_iff.mp allowed with single | enough
    · exact nonneg_of_keepsSingleCopy sound readable single
    · exact Int.le_of_lt (of_decide_eq_true enough)

end Removal

/-! ## The worker -/

theorem assigns_mergeAssignment : Assigns LabelledSlice.mergeAssignment :=
  fun slice _ _ inside => slice.assigned_lt _ inside

theorem assigns_optimizeAssignment : Assigns LabelledSlice.optimizeAssignment :=
  fun slice _ _ inside => slice.assigned_lt _ inside

/-- What the worker goes by: the goals, what is known of the servers, whether a deletion is
approved, and whether a copy could be ordered, before and after it looked for a part to remove. -/
structure Worker where
  definitions : GoalId → GoalDefinition
  useOptimizer : Bool
  label : Csid → MediaLabel
  usage : Csid → Int
  avoidSameIp : Bool
  full : Csid → Bool
  approves : ChunkPart → Bool
  replicates : Bool
  rebalances : Bool

namespace Worker

variable (worker : Worker)

/-- The goal of a chunk [SPEC chunks.cc:395-418]. -/
def target (c : Chunk) : LabelledGoal :=
  mergeDefinitions LabelledSlice.mergeAssignment
    ((c.goalCounters.counters.map (·.goal)).dedup.map worker.definitions)

/-- The valid parts with the labels of their servers. -/
def copies (c : Chunk) : List PartCopy :=
  (c.parts.filter (·.isValid)).map fun part => ⟨part.type, worker.label part.csid⟩

/-- The calculator that the worker makes of some copies and the goal of a chunk
[SPEC chunks.cc:3402-3426]. -/
def calculatorOf (c : Chunk) (copies : List PartCopy) : Calculator :=
  Calculator.optimize worker.useOptimizer LabelledSlice.optimizeAssignment
    ⟨LabelledGoal.available copies, worker.target c⟩

def calculator (c : Chunk) : Calculator :=
  worker.calculatorOf c (worker.copies c)

/-- More than one valid part is on one server [SPEC chunks.cc:3413-3423]. -/
def degenerate (c : Chunk) : Bool :=
  !((c.parts.filter (·.isValid)).map (·.csid)).Nodup

/-- What a part is compared by: whether it is to be deleted, how many parts have the address of
its server, and how full the server is [SPEC chunks.cc:3190-3194]. -/
structure Rank where
  todel : Bool
  occurrence : Nat
  usage : Int

def Rank.exceeds (first second : Rank) : Bool :=
  first.todel && !second.todel ||
    first.todel == second.todel &&
      (second.occurrence < first.occurrence ||
        second.occurrence = first.occurrence && second.usage < first.usage)

/-- [SPEC chunks.cc:3428-3436, 3188] -/
def occurrence (env : Environment) (c : Chunk) (part : ChunkPart) : Nat :=
  if worker.avoidSameIp then
    c.parts.countP fun other =>
      other.isValid && (env.server other.csid).map (·.ip) = (env.server part.csid).map (·.ip)
  else 1

def rank (env : Environment) (c : Chunk) (part : ChunkPart) : Rank :=
  ⟨part.isTodel, worker.occurrence env c part, worker.usage part.csid⟩

/-- Whether a part may be the candidate for a place in a slice
[SPEC chunks.cc:3177-3187]. -/
def eligible (pool : List MediaLabel) (type : ChunkPartType) (part : ChunkPart) : Bool :=
  part.isValid && part.type = type && !worker.full part.csid && worker.label part.csid ∈ pool

/-- The part with the highest rank, the first of several [SPEC chunks.cc:3176-3199]. -/
def bestCandidate (env : Environment) (c : Chunk) (pool : List MediaLabel)
    (type : ChunkPartType) : Option (ChunkPart × Nat) :=
  (c.parts.zipIdx.filter fun entry => worker.eligible pool type entry.1).foldl
    (fun best entry =>
      match best with
      | none => some entry
      | some old =>
          if (worker.rank env c entry.1).exceeds (worker.rank env c old.1) then some entry
          else some old)
    none

/-- [SPEC chunks.cc:3165-3225] The place of the part that is removed. -/
def removalCandidate (env : Environment) (c : Chunk) (type : ChunkPartType) : Option Nat :=
  let calculator := worker.calculator c
  (worker.bestCandidate env c (calculator.getRemovePool type.sliceType type.slicePart) type).bind
    fun (part, place) =>
      if calculator.canRemovePart type.sliceType type.slicePart (worker.label part.csid) &&
          worker.approves part then some place
      else none

/-- [SPEC chunks.cc:3480-3494] The first part of a slice that there is too much of, and
that can be removed. -/
def removal (env : Environment) (c : Chunk) : Option Nat :=
  let calculator := worker.calculator c
  calculator.available.findSome? fun slice =>
    (List.range slice.parts.length).findSome? fun part =>
      let operations := calculator.countPartsToMove slice.type part
      if 0 < operations.1 || operations.2 = 0 then none
      else worker.removalCandidate env c ⟨slice.type, part⟩

/-- [SPEC chunks.cc:3467-3522] -/
def choice (env : Environment) (c : Chunk) : WorkerChoice :=
  if worker.replicates then .replicate
  else if degenerate c && 0 < (worker.calculator c).countPartsToRecover then .nothing
  else
    match worker.removal env c with
    | some place => .remove place
    | none => if worker.rebalances then .replicate else .nothing

/-- The environment with the goals that the worker knows. -/
def environment (env : Environment) : Environment :=
  { env with
    mergedGoal := fun goals =>
      (mergeDefinitions LabelledSlice.mergeAssignment (goals.map worker.definitions)).toGoal }

/-- The chunk as the worker finds it, without the parts on servers that are gone
[SPEC chunks.cc:3385-3390]. -/
def found (env : Environment) (c : Chunk) : Chunk :=
  (c.handleDisconnectedCopies (worker.environment env)).updateStats (worker.environment env)

/-- [SPEC chunks.cc:3385-3523] -/
def doChunkJobs (env : Environment) (maintained : Bool) (busyServer : Csid → Bool) (c : Chunk) :
    Chunk :=
  c.doChunkJobs (worker.environment env) maintained busyServer
    (worker.choice env ((worker.found env c).deleteInvalidChunkParts busyServer))

/-! ### Every job leaves enough parts -/

variable {worker} {env : Environment} {c : Chunk}

variable {place : Nat}

theorem bestCandidate_eligible {pool : List MediaLabel} {type : ChunkPartType} {part : ChunkPart}
    (best : worker.bestCandidate env c pool type = some (part, place)) :
    c.parts[place]? = some part ∧ worker.eligible pool type part = true := by
  have among : ∀ (entries : List (ChunkPart × Nat)) (start : Option (ChunkPart × Nat)),
      entries.foldl
        (fun best entry =>
          match best with
          | none => some entry
          | some old =>
            if (worker.rank env c entry.1).exceeds (worker.rank env c old.1) then some entry
            else some old) start = some (part, place) →
      start = some (part, place) ∨ (part, place) ∈ entries := by
    intro entries
    induction entries with
    | nil => exact fun start isStart => .inl isStart
    | cons entry entries ih =>
      intro start chosen
      rcases ih _ chosen with next | later
      · cases start with
        | none => exact .inr (Option.some.inj next ▸ mem_cons_self)
        | some old =>
          dsimp only at next
          split at next
          · exact .inr (Option.some.inj next ▸ mem_cons_self)
          · exact .inl next
      · exact .inr (mem_cons_of_mem _ later)
  have mem := (among _ none best).resolve_left (Option.some_ne_none _).symm
  obtain ⟨inParts, eligible⟩ := mem_filter.mp mem
  exact ⟨mem_zipIdx_iff_getElem?.mp inParts, eligible⟩

/-- A chunk that a file refers to has a goal. -/
theorem target_ne_nil (referenced : 0 < c.fileCount) : worker.target c ≠ [] := by
  refine mergeDefinitions_ne_nil fun none => ?_
  have noCounters : c.goalCounters.counters = [] := by
    rwa [map_eq_nil_iff, dedup_eq_nil, map_eq_nil_iff] at none
  unfold Chunk.fileCount ChunkGoalCounters.fileCount at referenced
  rw [noCounters] at referenced
  exact absurd referenced (Nat.lt_irrefl 0)

theorem sound_calculatorOf (copies : List PartCopy) :
    ∀ slice ∈ (worker.calculatorOf c copies).target, slice.Sound := by
  intro slice mem
  obtain ⟨old, oldMember, rfl⟩ := mem_map.mp mem
  have sound := sound_mergeDefinitions assigns_mergeAssignment _ old oldMember
  split
  · exact sound
  next source _ =>
    split
    · exact sound
    · refine ⟨by simp [sound.sized], fun part inside => ?_⟩
      obtain ⟨k, within, rfl⟩ := mem_map.mp inside
      have assigned := assigns_optimizeAssignment old source k (mem_range.mp within)
      exact sound.getD (sound.sized ▸ assigned)

/-- A part that may be removed leaves enough parts of a chunk that a file refers to. -/
theorem calculatorOf_recoverable (referenced : 0 < c.fileCount) {copies : List PartCopy}
    {copy : PartCopy} (mem : copy ∈ copies)
    (allowed : (worker.calculatorOf c copies).canRemovePart copy.type.sliceType
      copy.type.slicePart copy.label = true) : Recoverable ((copies.erase copy).map (·.type)) := by
  have goal : (worker.calculatorOf c copies).target ≠ [] := fun none =>
    target_ne_nil referenced (map_eq_nil_iff.mp none)
  exact canRemovePart_recoverable goal (sound_calculatorOf copies) mem allowed

/-- The part that is removed was valid, and the others are enough. -/
theorem removal_recoverable (referenced : 0 < c.fileCount)
    (gone : worker.removal env c = some place) :
    ∃ part, c.parts[place]? = some part ∧ part.isValid = true ∧
      Recoverable (((worker.copies c).erase ⟨part.type, worker.label part.csid⟩).map (·.type)) := by
  obtain ⟨slice, _, inSlice⟩ := exists_of_findSome?_eq_some gone
  obtain ⟨index, _, inPart⟩ := exists_of_findSome?_eq_some inSlice
  dsimp only at inPart
  split at inPart
  · cases inPart
  obtain ⟨⟨part, _⟩, best, chosen⟩ := Option.bind_eq_some_iff.mp inPart
  dsimp only at chosen
  split at chosen
  next allowed =>
    cases chosen
    obtain ⟨there, fits⟩ := bestCandidate_eligible best
    unfold eligible at fits
    simp only [Bool.and_eq_true, decide_eq_true_iff] at fits allowed
    obtain ⟨⟨⟨valid, isType⟩, _⟩, _⟩ := fits
    refine ⟨part, there, valid, ?_⟩
    have inCopies : (⟨part.type, worker.label part.csid⟩ : PartCopy) ∈ worker.copies c :=
      mem_map.mpr ⟨part, mem_filter.mpr ⟨mem_of_getElem? there, valid⟩, rfl⟩
    have may : (worker.calculatorOf c (worker.copies c)).canRemovePart part.type.sliceType
        part.type.slicePart (worker.label part.csid) = true := by
      rw [isType]
      exact allowed.1
    exact calculatorOf_recoverable referenced inCopies may
  · cases chosen

/-- A removed part leaves the other valid parts. -/
theorem erase_subset_validTypes {parts : List ChunkPart} {part : ChunkPart}
    (eq : parts[place]? = some part) (h : part.isValid = true) (copy : ChunkPart → PartCopy) :
    ((parts.filter (·.isValid)).map copy).erase (copy part) ⊆
      ((parts.modify place fun part =>
        { part with state := .del }).filter (·.isValid)).map copy := by
  obtain ⟨inside, isPart⟩ := List.getElem?_eq_some_iff.mp eq
  have split : parts = parts.take place ++ part :: parts.drop (place + 1) := by
    rw [← isPart, List.cons_getElem_drop_succ, List.take_append_drop]
  have others : (parts.modify place fun part => { part with state := .del }).filter (·.isValid) =
      (parts.take place).filter (·.isValid) ++ (parts.drop (place + 1)).filter (·.isValid) := by
    rw [modify_eq_take_cons_drop inside, filter_append,
      filter_cons_of_neg (by simp [ChunkPart.isValid, PartState.isValid])]
  have prev : ((parts.filter (·.isValid)).map copy).Perm
      (copy part :: ((parts.take place).filter (·.isValid) ++
        (parts.drop (place + 1)).filter (·.isValid)).map copy) := by
    conv => lhs; rw [split]
    rw [filter_append, filter_cons_of_pos h, map_append, map_append]
    exact perm_middle
  rw [others]
  intro other mem
  have moved := (prev.erase (copy part)).subset mem
  rwa [erase_cons_head] at moved

/-- The valid parts of a chunk are enough. -/
def Readable (c : Chunk) : Prop :=
  Recoverable c.validTypes

theorem validTypes_deleteInvalidChunkParts (busyServer : Csid → Bool) (c : Chunk) :
    (c.deleteInvalidChunkParts busyServer).validTypes = c.validTypes := by
  unfold Chunk.validTypes Chunk.deleteInvalidChunkParts
  rw [filter_map, map_map]
  have states : (fun part : ChunkPart => part.isValid) ∘ (fun part : ChunkPart =>
      if !busyServer part.csid && !part.isValid then { part with state := .del } else part) =
        fun part => part.isValid := by
    funext part
    simp only [Function.comp_apply]
    split
    next gone =>
      have invalid := (Bool.and_eq_true_iff.mp gone).2
      rw [Bool.not_eq_true'] at invalid
      rw [invalid]
      rfl
    · rfl
  rw [states]
  refine map_congr_left fun part _ => ?_
  simp only [Function.comp_apply]
  split <;> rfl

/-- The removal that the worker has chosen. -/
theorem readable_removeUnneededChunkPart (referenced : 0 < c.fileCount)
    (gone : worker.removal env c = some place) :
    Readable (c.removeUnneededChunkPart (worker.environment env) place) := by
  obtain ⟨part, there, valid, enough⟩ := removal_recoverable referenced gone
  unfold Chunk.removeUnneededChunkPart
  rw [if_pos (by rw [there]; exact valid)]
  refine enough.mono ?_
  have kept := erase_subset_validTypes there valid fun part => ⟨part.type, worker.label part.csid⟩
  intro type mem
  obtain ⟨copy, inCopies, rfl⟩ := mem_map.mp mem
  obtain ⟨left, inLeft, rfl⟩ := mem_map.mp (kept inCopies)
  exact mem_map.mpr ⟨left, inLeft, rfl⟩

/-- The jobs of a chunk that a file refers to: a part is removed only when the other valid parts
are enough, and nothing else takes a valid part away. -/
theorem readable_doChunkJobs (referenced : 0 < c.fileCount) (maintained : Bool)
    (busyServer : Csid → Bool) (enough : Readable (worker.found env c)) :
    Readable (worker.doChunkJobs env maintained busyServer c) := by
  have counters : (worker.found env c).goalCounters = c.goalCounters :=
    congrArg Prod.snd (c.refs_handleDisconnectedCopies (worker.environment env))
  have trimmed : Readable ((worker.found env c).deleteInvalidChunkParts busyServer) := by
    unfold Readable
    rw [validTypes_deleteInvalidChunkParts]
    exact enough
  have stillReferenced :
      0 < ((worker.found env c).deleteInvalidChunkParts busyServer).fileCount := by
    show 0 < (worker.found env c).goalCounters.fileCount
    rw [counters]
    exact referenced
  unfold doChunkJobs Chunk.doChunkJobs
  unfold found at enough trimmed stillReferenced ⊢
  generalize (c.handleDisconnectedCopies (worker.environment env)).updateStats
    (worker.environment env) = f at enough trimmed stillReferenced ⊢
  dsimp only
  generalize f.deleteInvalidChunkParts busyServer = d at trimmed stillReferenced ⊢
  split
  · exact enough
  split
  · exact enough
  split
  · exact trimmed
  rw [if_neg (Nat.ne_of_gt stillReferenced)]
  split
  · exact trimmed
  split
  · exact trimmed
  next place chosen =>
    have gone : worker.removal env d = some place := by
      unfold choice at chosen
      split at chosen
      · cases chosen
      split at chosen
      · cases chosen
      split at chosen
      next isPlace => cases chosen; exact isPlace
      · split at chosen <;> cases chosen
    exact readable_removeUnneededChunkPart stillReferenced gone
  · exact trimmed

/-- A worker for files that ask for one copy. -/
def forOneCopy : Worker where
  definitions := fun _ =>
    { slices := [defaultSlice 1]
      some := List.cons_ne_nil _ _
      sound := fun slice member => by
        rw [List.mem_singleton.mp member]
        exact sound_defaultSlice (by decide) }
  useOptimizer := true
  label := fun _ => MediaLabel.kWildcard
  usage := fun csid => csid.toNat
  avoidSameIp := false
  full := fun _ => false
  approves := fun _ => true
  replicates := false
  rebalances := false

/-- Servers that are all connected. -/
def allConnected : Environment where
  server := fun csid => some ⟨csid.toUInt32, 9422, 0x050800, false⟩
  time := 1000
  mergedGoal := fun _ => []
  redundancyLevel := 0
  useChunkserverSideChunkLock := false

/-- A chunk of one file with copies on three servers, one of them on a disk that is to be
emptied. -/
def threeCopies : Chunk :=
  { ((Chunk.new 7 1).addFile allConnected 1).1 with
    parts :=
      [⟨1, .valid, 1, ChunkPartType.standard, false⟩,
        ⟨2, .tdvalid, 1, ChunkPartType.standard, false⟩,
        ⟨3, .valid, 1, ChunkPartType.standard, false⟩] }

end Worker

end LeilFS.Chunks
