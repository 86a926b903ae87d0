/-
Module: LeilFS.Chunks.WritePlans
Purpose: When a planned write has enough valid parts.
Trusted boundary: none
-/
import LeilFS.Chunks.Redundancy
import LeilFS.Chunks.Registry

namespace LeilFS.Chunks

open List

/-!
The check before a write counts all parts of the chunk, also those that are not valid.  Their
level is a sum of what the slices are worth: copies of the whole chunk each by itself, other
slices by their different parts.  So parts that are not valid do no harm where they are copies
of parts that are there anyway, or of slices that are not readable with them either.

[SPEC chunks.cc:1704-1746, chunk_copies_calculator.cc:259-307]
-/

/-! ## The level as a sum -/

/-- The numbers of copies of the parts of a slice. -/
def countParts (types : List ChunkPartType) (type : SliceType) : List Nat :=
  (List.range type.expectedParts).map fun part => types.count ⟨type, part⟩

/-- What the parts of a slice are worth: one more than the losses that they survive. -/
def worth (types : List ChunkPartType) (type : SliceType) : Nat :=
  if type.isStandard then types.count ⟨type, 0⟩
  else if type.isXor || type.isEC then
    distinctParts types type + 1 - type.getNumberOfDataParts
  else 0

variable {types : List ChunkPartType} {part : ChunkPartType}

theorem countParts_append_of_ne {type : SliceType} (ne : part.sliceType ≠ type) :
    countParts (types ++ [part]) type = countParts types type := by
  refine map_congr_left fun number _ => ?_
  rw [count_append, count_singleton, if_neg, Nat.add_zero]
  simpa using fun eq => ne (congrArg ChunkPartType.sliceType eq)

theorem countParts_append_self :
    countParts (types ++ [part]) part.sliceType =
      (countParts types part.sliceType).modify part.slicePart (· + 1) := by
  refine ext_getElem (by simp [countParts]) fun number _ _ => ?_
  simp only [countParts, getElem_map, getElem_range, getElem_modify, count_append]
  by_cases eq : part.slicePart = number
  · subst eq
    simp
  · have ne : part ≠ ⟨part.sliceType, number⟩ := fun same =>
      eq (congrArg ChunkPartType.slicePart same)
    simp [eq, ne]

theorem countParts_eq_replicate {type : SliceType} (absent : type ∉ types.map (·.sliceType)) :
    countParts types type = List.replicate type.expectedParts 0 := by
  refine eq_replicate_iff.mpr ⟨by simp [countParts], fun count mem => ?_⟩
  obtain ⟨number, _, rfl⟩ := mem_map.mp mem
  exact count_eq_zero.mpr fun there => absent (mem_map.mpr ⟨_, there, rfl⟩)

/-- A slice that counts parts is worth what they are. -/
theorem max_evalSliceRedundancyLevel {slice : Slice}
    (counts : slice.copies = countParts types slice.type) :
    max (slice.evalSliceRedundancyLevel + 1) 0 = worth types slice.type := by
  unfold Slice.evalSliceRedundancyLevel worth
  split
  next standard =>
    have one : countParts types slice.type = [types.count ⟨slice.type, 0⟩] := by
      rw [SliceType.isStandard_iff.mp standard]
      rfl
    rw [counts, one, sum_singleton]
    omega
  next =>
    have parts : slice.copies.countP (0 < ·) = distinctParts types slice.type := by
      rw [counts, countParts, countP_map]
      refine countP_congr fun number _ => ?_
      simp [count_pos_iff]
    split
    · rw [parts]
      omega
    · rfl

namespace Goal

/-- The slices of a goal count the parts. -/
structure Counts (goal : Goal) (types : List ChunkPartType) : Prop where
  nodup : (goal.map Slice.type).Nodup
  present : ∀ type, type ∈ goal.map Slice.type ↔ type ∈ types.map (·.sliceType)
  copies : ∀ slice ∈ goal, slice.copies = countParts types slice.type

theorem map_type_addPart (goal : Goal) (part : ChunkPartType) :
    (goal.addPart part).map Slice.type = if part.sliceType ∈ goal.map Slice.type then
      goal.map Slice.type else goal.map Slice.type ++ [part.sliceType] := by
  induction goal with
  | nil => rfl
  | cons slice goal ih =>
    by_cases eq : slice.type = part.sliceType
    · simp [addPart, eq]
    · rw [addPart, if_neg eq, map_cons, ih, map_cons]
      by_cases later : part.sliceType ∈ goal.map Slice.type
      · rw [if_pos later, if_pos (mem_cons_of_mem _ later)]
      · rw [if_neg later, if_neg (by simp [Ne.symm eq, later]), cons_append]

theorem copies_addPart {goal : Goal} (nodup : (goal.map Slice.type).Nodup)
    (copies : ∀ slice ∈ goal, slice.copies = countParts types slice.type)
    (absent : part.sliceType ∉ goal.map Slice.type → part.sliceType ∉ types.map (·.sliceType)) :
    ∀ slice ∈ goal.addPart part, slice.copies = countParts (types ++ [part]) slice.type := by
  induction goal with
  | nil =>
    refine forall_mem_singleton.mpr ?_
    rw [countParts_append_self, countParts_eq_replicate (absent not_mem_nil)]
  | cons slice goal ih =>
    obtain ⟨other, nodup⟩ := nodup_cons.mp nodup
    obtain ⟨here, copies⟩ := forall_mem_cons.mp copies
    unfold addPart
    split
    next eq =>
      refine forall_mem_cons.mpr ⟨?_, fun later mem => ?_⟩
      · dsimp only
        rw [here, eq, countParts_append_self]
      · rw [copies later mem, countParts_append_of_ne]
        exact fun same => other (eq ▸ same ▸ mem_map_of_mem mem)
    next ne =>
      refine forall_mem_cons.mpr ⟨here.trans (countParts_append_of_ne (Ne.symm ne)).symm, ?_⟩
      exact ih nodup copies fun missing => absent (by simp [Ne.symm ne, missing])

theorem counts_available (types : List ChunkPartType) : (available types).Counts types := by
  induction types using reverseRecOn with
  | nil => exact ⟨nodup_nil, fun _ => Iff.rfl, forall_mem_nil _⟩
  | append_singleton types part ih =>
    rw [available, foldl_append, ← available]
    show ((available types).addPart part).Counts _
    refine ⟨?_, fun type => ?_,
      copies_addPart ih.nodup ih.copies fun absent => (ih.present _).not.mp absent⟩
    · rw [map_type_addPart]
      split
      · exact ih.nodup
      next absent => exact ih.nodup.append (nodup_singleton _) (by simpa using absent)
    · rw [map_type_addPart, map_append, map_singleton, mem_append, mem_singleton, ← ih.present]
      split
      next there => exact ⟨.inl, fun mem => mem.elim id fun eq => eq ▸ there⟩
      · rw [mem_append, mem_singleton]

/-- The level of parts, over any set of slices with all of theirs. -/
theorem Counts.evalRedundancyLevel {goal : Goal} (counts : goal.Counts types)
    (slices : Finset SliceType) (all : ∀ part ∈ types, part.sliceType ∈ slices) :
    goal.evalRedundancyLevel + 1 = ((∑ type ∈ slices, worth types type : Nat) : Int) := by
  have listed : goal.evalRedundancyLevel + 1 =
      (((goal.map Slice.type).map (worth types)).sum : Nat) := by
    rw [Goal.evalRedundancyLevel, Int.sub_add_cancel, map_map, Nat.cast_list_sum, map_map]
    exact congrArg sum (map_congr_left fun slice mem =>
      max_evalSliceRedundancyLevel (counts.copies slice mem))
  rw [listed, ← sum_toFinset _ counts.nodup]
  refine congrArg _ (Finset.sum_subset (fun type mem => ?_) fun type _ absent => ?_)
  · obtain ⟨part, inside, rfl⟩ := mem_map.mp ((counts.present type).mp (mem_toFinset.mp mem))
    exact all part inside
  · rw [mem_toFinset, counts.present] at absent
    have none (part : Nat) : (⟨type, part⟩ : ChunkPartType) ∉ types := fun there =>
      absent (mem_map.mpr ⟨_, there, rfl⟩)
    have nothing : distinctParts types type = 0 := by simp [distinctParts, none]
    have needed := type.dataParts_pos
    unfold worth
    rw [count_eq_zero.mpr (none 0), nothing]
    split_ifs <;> omega

/-- Parts that are worth as much in every slice have a level as high. -/
theorem evalRedundancyLevel_mono {more : List ChunkPartType}
    (le : ∀ type, worth types type ≤ worth more type) :
    (available types).evalRedundancyLevel ≤ (available more).evalRedundancyLevel := by
  have first := (counts_available types).evalRedundancyLevel
    ((types ++ more).map (·.sliceType)).toFinset fun part mem => by simp; grind
  have second := (counts_available more).evalRedundancyLevel
    ((types ++ more).map (·.sliceType)).toFinset fun part mem => by simp; grind
  have sums := Finset.sum_le_sum fun type
    (_ : type ∈ ((types ++ more).map (·.sliceType)).toFinset) => le type
  omega

/-- One slice alone is worth no more than all of them. -/
theorem worth_le_evalRedundancyLevel (types : List ChunkPartType) (type : SliceType) :
    worth types type ≤ (available types).evalRedundancyLevel + 1 := by
  have level := (counts_available types).evalRedundancyLevel
    (type :: types.map (·.sliceType)).toFinset fun part mem => by simp; grind
  have one := Finset.single_le_sum (fun other _ => Nat.zero_le (worth types other))
    (show type ∈ (type :: types.map (·.sliceType)).toFinset by simp)
  omega

/-- The parts have what a goal with different slices asks for: as many copies of a whole chunk,
and as many different parts of another slice. -/
structure Met (goal : Goal) (types : List ChunkPartType) : Prop where
  nodup : (goal.map Slice.type).Nodup
  copies : ∀ slice ∈ goal, slice.type.isStandard = true →
    slice.copies.sum ≤ types.count ⟨slice.type, 0⟩
  parts : ∀ slice ∈ goal, slice.type.isStandard = false →
    slice.copies.countP (0 < ·) ≤ distinctParts types slice.type

theorem Met.evalRedundancyLevel_le {goal : Goal} (met : goal.Met types) :
    goal.evalRedundancyLevel ≤ (available types).evalRedundancyLevel := by
  have worthy : ∀ slice ∈ goal,
      max (slice.evalSliceRedundancyLevel + 1) 0 ≤ (worth types slice.type : Int) := by
    intro slice mem
    have copies := met.copies slice mem
    have parts := met.parts slice mem
    unfold Slice.evalSliceRedundancyLevel worth
    cases standard : slice.type.isStandard with
    | true =>
      have enough := copies standard
      simp only [if_true]
      omega
    | false =>
      have enough := parts standard
      simp only [Bool.false_eq_true, if_false]
      split <;> omega
  have level := (counts_available types).evalRedundancyLevel
    (goal.map Slice.type ++ types.map (·.sliceType)).toFinset fun part mem => by
      simp; grind
  have sum : (goal.map fun slice => max (slice.evalSliceRedundancyLevel + 1) 0).sum ≤
      ((((goal.map Slice.type).map (worth types)).sum : Nat) : Int) := by
    rw [map_map, Nat.cast_list_sum, map_map]
    exact sum_le_sum worthy
  have among : ((goal.map Slice.type).map (worth types)).sum ≤
      ∑ type ∈ (goal.map Slice.type ++ types.map (·.sliceType)).toFinset, worth types type := by
    rw [← sum_toFinset _ met.nodup]
    exact Finset.sum_le_sum_of_subset (by simp)
  unfold evalRedundancyLevel at level ⊢
  omega

end Goal

section

variable {copies : List PartCopy}

theorem LabelledGoal.present_available (type : SliceType) :
    type ∈ (available copies).toGoal.map Slice.type ↔
      type ∈ (copies.map (·.type)).map (·.sliceType) := by
  have shaped := shaped_available copies
  have found : type ∈ (available copies).toGoal.map Slice.type ↔
      (available copies).find type ≠ none := by
    rw [Option.ne_none_iff_exists', toGoal, map_map, mem_map]
    exact exists_congr fun slice => (shaped.ordered.find_eq_some_iff).symm
  rw [found]
  clear found shaped
  induction copies using reverseRecOn with
  | nil => simp [available, find, FlatMap.find]
  | append_singleton copies copy ih =>
    rw [available_append, (shaped_available copies).find_addPart, map_append, map_append,
      mem_append]
    refine Iff.trans ?_ (or_congr_left ih)
    by_cases eq : copy.type.sliceType = type
    · simp [eq]
    · simp [eq, Ne.symm eq]

/-- The calculator without labels reports what the one with labels does. -/
theorem evalRedundancyLevel_toGoal (counted : LabelledGoal.Counted copies) :
    (LabelledGoal.available copies).toGoal.evalRedundancyLevel =
      (Goal.available (copies.map (·.type))).evalRedundancyLevel := by
  have shaped := LabelledGoal.shaped_available copies
  have counts : (LabelledGoal.available copies).toGoal.Counts (copies.map (·.type)) := by
    refine ⟨?_, LabelledGoal.present_available, fun slice mem => ?_⟩
    · rw [LabelledGoal.toGoal, map_map]
      exact shaped.ordered.nodup
    · obtain ⟨labelled, inside, rfl⟩ := mem_map.mp mem
      rw [counted.toSlice_copies inside]
      refine map_congr_left fun part _ => ?_
      simp [LabelledGoal.copiesOf, LabelledGoal.labelsOf, count_eq_countP, countP_eq_length_filter,
        filter_map, Function.comp_def, LabelledSlice.toSlice]
      rfl
  have labelled := counts.evalRedundancyLevel
    ((copies.map (·.type)).map (·.sliceType)).toFinset fun part mem => by simp; grind
  have plain := (Goal.counts_available (copies.map (·.type))).evalRedundancyLevel
    ((copies.map (·.type)).map (·.sliceType)).toFinset fun part mem => by simp; grind
  omega

end

namespace Chunk

/-- A part of the chunk that makes no difference to its level: it is no copy of the whole chunk,
and it has a valid copy, or its slice is not readable even with all of its parts. -/
def MakesNoDifference (c : Chunk) (type : ChunkPartType) : Prop :=
  type.sliceType.isStandard = false ∧
    (type ∈ c.validTypes ∨ distinctParts (c.parts.map (·.type)) type.sliceType <
      type.sliceType.getNumberOfDataParts)

instance (c : Chunk) (type : ChunkPartType) : Decidable (c.MakesNoDifference type) :=
  inferInstanceAs (Decidable (_ ∧ _))

/-- None of the parts that are not valid makes a difference. -/
def InvalidAddNothing (c : Chunk) : Prop :=
  ∀ part ∈ c.parts, part.isValid = false → c.MakesNoDifference part.type

instance (c : Chunk) : Decidable c.InvalidAddNothing :=
  inferInstanceAs (Decidable (∀ _ ∈ _, _))

theorem InvalidAddNothing.worth_le {c : Chunk} (h : c.InvalidAddNothing) (type : SliceType) :
    worth (c.parts.map (·.type)) type ≤ worth c.validTypes type := by
  unfold worth
  split
  next standard =>
    -- every copy of the whole chunk is valid
    unfold validTypes
    rw [count_eq_countP, count_eq_countP, countP_map, countP_map, countP_filter]
    refine countP_mono_left fun part mem eq => ?_
    have isType : part.type = ⟨type, 0⟩ := by simpa using eq
    cases valid : part.isValid with
    | true => simpa using isType
    | false =>
      have no := (h part mem valid).1
      rw [isType] at no
      exact absurd (standard.symm.trans no) (by simp)
  next =>
    split
    · by_cases few : distinctParts (c.parts.map (·.type)) type < type.getNumberOfDataParts
      · omega
      · have same : distinctParts (c.parts.map (·.type)) type ≤
            distinctParts c.validTypes type := by
          refine countP_mono_left fun number _ there => decide_eq_true ?_
          obtain ⟨part, mem, eq⟩ := mem_map.mp (of_decide_eq_true there)
          cases valid : part.isValid with
          | true => exact mem_map.mpr ⟨part, mem_filter.mpr ⟨mem, valid⟩, eq⟩
          | false =>
            have nothing := (h part mem valid).2
            rw [eq] at nothing
            exact nothing.resolve_right few
        omega
    · exact Nat.le_refl 0

theorem countP_lt_countP {α : Type} {p q : α → Bool} {xs : List α}
    (le : ∀ x ∈ xs, p x = true → q x = true) {x : α} (mem : x ∈ xs) (more : q x = true)
    (less : p x = false) : xs.countP p < xs.countP q := by
  obtain ⟨front, back, rfl⟩ := append_of_mem mem
  have first := countP_mono_left (l := front) fun y inside => le y (by simp [inside])
  have second := countP_mono_left (l := back) fun y inside => le y (by simp [inside])
  rw [countP_append, countP_append, countP_cons, countP_cons, more, less]
  simp only [if_true, Bool.false_eq_true, if_false]
  omega

theorem mem_of_mem_validTypes {c : Chunk} {type : ChunkPartType} (mem : type ∈ c.validTypes) :
    type ∈ c.parts.map (·.type) := by
  obtain ⟨part, inside, rfl⟩ := mem_map.mp mem
  exact mem_map_of_mem (mem_filter.mp inside).1

/-- The valid parts of a slice are worth no more than all of them. -/
theorem worth_validTypes_le (c : Chunk) (type : SliceType) :
    worth c.validTypes type ≤ worth (c.parts.map (·.type)) type := by
  have some : c.validTypes.Sublist (c.parts.map (·.type)) := filter_sublist.map ChunkPart.type
  have copies := some.count_le ⟨type, 0⟩
  have parts : distinctParts c.validTypes type ≤ distinctParts (c.parts.map (·.type)) type :=
    countP_mono_left fun number _ there =>
      decide_eq_true (mem_of_mem_validTypes (of_decide_eq_true there))
  unfold worth
  split_ifs <;> omega

/-- A part that is not valid and makes a difference is worth something to its slice. -/
theorem worth_validTypes_lt {c : Chunk} {part : ChunkPart} (mem : part ∈ c.parts)
    (invalid : part.isValid = false) (readable : part.type.sliceType.Readable)
    (inside : part.type.slicePart < part.type.sliceType.expectedParts)
    (differs : ¬ c.MakesNoDifference part.type) :
    worth c.validTypes part.type.sliceType <
      worth (c.parts.map (·.type)) part.type.sliceType := by
  unfold worth
  cases standard : part.type.sliceType.isStandard with
  | true =>
    have zero := SliceType.isStandard_iff.mp standard
    have whole : part.type = ⟨part.type.sliceType, 0⟩ := by
      have first : part.type.slicePart < 1 := by rwa [zero] at inside
      exact congrArg (ChunkPartType.mk part.type.sliceType) (Nat.lt_one_iff.mp first)
    simp only [if_true]
    rw [validTypes, count_eq_countP, count_eq_countP, countP_map, countP_map, countP_filter]
    refine countP_lt_countP (fun other _ both => (Bool.and_eq_true_iff.mp both).1) mem ?_ ?_
    · simpa using whole
    · simp [invalid]
  | false =>
    have sliced : (part.type.sliceType.isXor || part.type.sliceType.isEC) = true := by
      rcases readable with whole | xor | ec
      · rw [standard] at whole
        cases whole
      · rw [xor, Bool.true_or]
      · rw [ec, Bool.or_true]
    have neither : part.type ∉ c.validTypes ∧ part.type.sliceType.getNumberOfDataParts ≤
        distinctParts (c.parts.map (·.type)) part.type.sliceType := by
      simpa [MakesNoDifference, standard] using differs
    have fewer : distinctParts c.validTypes part.type.sliceType <
        distinctParts (c.parts.map (·.type)) part.type.sliceType :=
      countP_lt_countP
        (fun number _ there => decide_eq_true (mem_of_mem_validTypes (of_decide_eq_true there)))
        (mem_range.mpr inside) (decide_eq_true (mem_map_of_mem mem)) (decide_eq_false neither.1)
    simp only [Bool.false_eq_true, if_false, sliced, if_true]
    omega

/-- The check that counts all parts is as strict as one that counts the valid ones, whatever the
goal and the level asked for, exactly if those that are not valid add nothing. -/
theorem invalidAddNothing_iff {c : Chunk} (known : ∀ part ∈ c.parts,
      part.type.sliceType.Readable ∧ part.type.slicePart < part.type.sliceType.expectedParts) :
    c.InvalidAddNothing ↔ ∀ goal level,
      Goal.isSafeEnoughToWrite goal (Goal.available (c.parts.map (·.type))) level = true →
        Goal.isSafeEnoughToWrite goal (Goal.available c.validTypes) level = true := by
  constructor
  · intro nothing goal level enough
    exact decide_eq_true
      ((of_decide_eq_true enough).trans (Goal.evalRedundancyLevel_mono nothing.worth_le))
  · intro strict part mem invalid
    by_contra differs
    obtain ⟨readable, inside⟩ := known part mem
    -- the parts themselves are a goal that all of them just meet
    have meets := strict (Goal.available (c.parts.map (·.type)))
      (Goal.available (c.parts.map (·.type))).evalRedundancyLevel
    simp only [Goal.isSafeEnoughToWrite, min_self, le_refl, decide_true, forall_const,
      decide_eq_true_eq] at meets
    have all := (Goal.counts_available (c.parts.map (·.type))).evalRedundancyLevel
      ((c.parts.map (·.type)).map (·.sliceType)).toFinset
      fun part mem => mem_toFinset.mpr (mem_map_of_mem mem)
    have valid := (Goal.counts_available c.validTypes).evalRedundancyLevel
      ((c.parts.map (·.type)).map (·.sliceType)).toFinset
      fun part mem => mem_toFinset.mpr (mem_map_of_mem (mem_of_mem_validTypes mem))
    have less := Finset.sum_lt_sum
      (s := ((c.parts.map (·.type)).map (·.sliceType)).toFinset)
      (fun type _ => worth_validTypes_le c type)
      ⟨part.type.sliceType, mem_toFinset.mpr (mem_map_of_mem (mem_map_of_mem mem)),
        worth_validTypes_lt mem invalid readable inside differs⟩
    omega

end Chunk

namespace Registry

/-! ## Planned writes -/

/-- The parts are enough for a write to the chunk. -/
def enough (r : Registry) (c : Chunk) (types : List ChunkPartType) : Bool :=
  Goal.isSafeEnoughToWrite (r.env.getGoal c.goalCounters) (Goal.available types)
    r.env.redundancyLevel

/-- What a write to an existing chunk has to pass beside the check of its parts. -/
structure LetsWrite (r : Registry) (c : Chunk) (lockid : UInt32) (quotaExceeded : Bool) :
    Prop where
  lock : r.lockRefusal c lockid = none
  writable : c.isWritable = true
  referred : c.fileCount ≠ 0
  idle : c.fileCount = 1 → c.operation = .none
  quota : c.fileCount ≠ 1 → quotaExceeded = false

theorem planFileChange_ok_iff (r : Registry) (c : Chunk) (quotaExceeded : Bool)
    (inPlaceOperation copyOperation : ChunkOperation) {plan : ChunkMutationPlan}
    (ok : plan.status = .ok) :
    (r.planFileChange c quotaExceeded inPlaceOperation copyOperation plan).1.status = .ok ↔
      c.fileCount ≠ 0 ∧ (c.fileCount = 1 → c.operation = .none) ∧
        (c.fileCount ≠ 1 → quotaExceeded = false) := by
  unfold planFileChange
  by_cases unshared : c.fileCount = 1
  · by_cases idle : c.operation = .none <;> simp [unshared, idle, ChunkMutationPlan.refuse, ok]
  · by_cases unused : c.fileCount = 0
    · simp [unused, ChunkMutationPlan.refuse]
    · cases quotaExceeded <;> simp [unshared, unused, ChunkMutationPlan.refuse, ok]

/-- A write to an existing chunk is planned when all of its parts are enough, valid or not. -/
theorem planModify_ok_iff {r r' : Registry} {id : ChunkId} {c : Chunk} (existing : id ≠ 0)
    (found : r.lookup id = (some c, r')) (lockid : UInt32) (goal : GoalId) (quotaExceeded : Bool)
    (h : Placement) (random : UInt32) :
    (r.planModify id lockid goal quotaExceeded h random).1.status = .ok ↔
      r'.LetsWrite c lockid quotaExceeded ∧ r'.enough c (c.parts.map (·.type)) = true := by
  have planned : (r.planModify id lockid goal quotaExceeded h random).1.status = .ok ↔
      (r.planChange lockid quotaExceeded (ChunkMutationPlan.start id goal)).1.status = .ok := by
    simp only [planModify, if_neg existing]
    split <;> rfl
  rw [planned, planChange]
  simp only [ChunkMutationPlan.start, found]
  cases refusal : r'.lockRefusal c lockid with
  | some status =>
    have answers : status = .notLocked ∨ status = .wrongLockId ∨ status = .locked := by
      unfold lockRefusal at refusal
      grind
    refine iff_of_false ?_ fun lets => absurd (refusal.symm.trans lets.1.lock) (by simp)
    rcases answers with rfl | rfl | rfl <;> simp [ChunkMutationPlan.refuse]
  | none =>
    rw [← enough]
    cases writable : c.isWritable with
    | false =>
      exact iff_of_false (by simp [ChunkMutationPlan.refuse])
        fun lets => absurd (writable.symm.trans lets.1.writable) (by simp)
    | true =>
      cases all : r'.enough c (c.parts.map (·.type)) with
      | false => simp [ChunkMutationPlan.refuse]
      | true =>
        simp only [Bool.not_true, Bool.false_eq_true, if_false]
        rw [planFileChange_ok_iff _ _ _ _ _ rfl]
        exact ⟨fun ⟨referred, idle, quota⟩ => ⟨⟨refusal, writable, referred, idle, quota⟩, trivial⟩,
          fun lets => ⟨lets.1.referred, lets.1.idle, lets.1.quota⟩⟩

/-- Servers are there, and files should have two copies. -/
def twoCopies : Environment where
  server := fun csid => some ⟨csid.toUInt32, 9422, 0x050800, false⟩
  time := 1000
  mergedGoal := fun _ => [⟨SliceType.kStandard, [2]⟩]
  redundancyLevel := 1
  useChunkserverSideChunkLock := false

/-- A chunk with these parts, valid or not. -/
def chunkWith (parts : List (ChunkPartType × PartState)) : Chunk :=
  Chunk.updateStats twoCopies
    { ((Chunk.new 7 1).addFile twoCopies 1).1 with
      parts := parts.mapIdx fun i part => ⟨UInt16.ofNat i, part.2, 1, part.1, false⟩ }

def holding (c : Chunk) : Registry where
  env := twoCopies
  slots := [some c]
  lastchunkid := 0
  lastchunkptr := none
  nextChunkId := 8

/-- Two parts and their parity are valid; an old copy of a part is not. -/
def oldPart : Chunk :=
  chunkWith [(⟨2, 0⟩, .valid), (⟨2, 1⟩, .valid), (⟨2, 2⟩, .busy), (⟨2, 1⟩, .invalid)]

/-- One of two copies is not valid. -/
def invalidCopy : Chunk := chunkWith [(.standard, .valid), (.standard, .invalid)]

end Registry

end LeilFS.Chunks
