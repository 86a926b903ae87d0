/-
Module: LeilFS.Chunks.Redundancy
Purpose: What the redundancy level of a set of parts says about the losses it survives.
Trusted boundary: none
-/
import LeilFS.Chunks.Calculator

namespace LeilFS.Chunks

open LabelledSlice List FlatMap

/-!
The calculator counts the copies of each part by label, and the level it reports is one less
than the number of losses that make the chunk unreadable.  The counts are 16 bits wide and the
sums are `int`s; both are wide enough for the parts of a chunk, of which a chunkserver has each
at most once, as there are at most 8192 chunkservers [SPEC chunkserver_db.h:35,
chunks.cc:2405-2446].
-/

/-! ## Chunks that can be read -/

/-- The slices a chunk can be read from. -/
def SliceType.Readable (type : SliceType) : Prop :=
  type.isStandard ∨ type.isXor ∨ type.isEC

/-- How many different parts of a slice type there are copies of. -/
def distinctParts (types : List ChunkPartType) (type : SliceType) : Nat :=
  (List.range type.expectedParts).countP fun part => (⟨type, part⟩ : ChunkPartType) ∈ types

/-- Some slice has enough different parts. -/
def Recoverable (types : List ChunkPartType) : Prop :=
  ∃ type : SliceType, type.Readable ∧ type.getNumberOfDataParts ≤ distinctParts types type

theorem Slice.readable_of_nonneg (slice : Slice) (enough : 0 ≤ slice.evalSliceRedundancyLevel) :
    slice.type.Readable := by
  unfold Slice.evalSliceRedundancyLevel at enough
  split at enough
  next standard => exact .inl standard
  next =>
    split at enough
    next sliced => exact .inr (Bool.or_eq_true_iff.mp sliced)
    · exact absurd enough (by decide)

theorem Recoverable.mono {types more : List ChunkPartType} (enough : Recoverable types)
    (among : types ⊆ more) : Recoverable more := by
  obtain ⟨type, readable, parts⟩ := enough
  refine ⟨type, readable, parts.trans (countP_mono_left fun part _ found => ?_)⟩
  exact decide_eq_true (among (of_decide_eq_true found))

/-! ## Counts of labels -/

namespace Labels

/-- The labels are in their order. -/
def Ordered (labels : Labels) : Prop :=
  FlatMap.Ordered Prod.fst labels

variable {labels : Labels} {label other : MediaLabel}

theorem Ordered.increment (h : labels.Ordered) : (increment label labels).Ordered :=
  FlatMap.Ordered.upsert rfl (fun _ => rfl) h

theorem find_increment (h : labels.Ordered) : find Prod.fst other (increment label labels) =
      if label = other then
        some ((find Prod.fst other labels).elim (label, 1) fun entry => (entry.1, entry.2 + 1))
      else find Prod.fst other labels :=
  FlatMap.Ordered.find_upsert (by rfl) (by exact fun _ => rfl) h

theorem copiesOn_increment (h : labels.Ordered) : copiesOn other (increment label labels) =
      if label = other then copiesOn other labels + 1 else copiesOn other labels := by
  unfold copiesOn
  rw [find_increment h]
  split
  · cases find Prod.fst other labels <;> rfl
  · rfl

/-- One count moves by one, and the sum with it. -/
theorem countLabels_increment (h : labels.Ordered) :
    (increment label labels).countLabels + (copiesOn label labels).toNat =
      labels.countLabels + (copiesOn label labels + 1).toNat := by
  have sums : (increment label labels).countLabels + _ = labels.countLabels + _ :=
    FlatMap.Ordered.sum_upsert h (·.2.toNat)
  unfold copiesOn
  cases found : find Prod.fst label labels with
  | none => rw [found] at sums; exact sums
  | some entry => rw [found] at sums; exact sums

/-- One count moves back by one, and the sum with it. -/
theorem countLabels_decrement (ne : find Prod.fst label labels ≠ none) :
    (decrement label labels).countLabels + (copiesOn label labels).toNat =
      labels.countLabels + (copiesOn label labels - 1).toNat := by
  obtain ⟨entry, found⟩ := Option.ne_none_iff_exists'.mp ne
  unfold copiesOn
  rw [found]
  exact sum_modify found (·.2.toNat)

/-! ### The labels of a list of copies -/

/-- The labels of the copies of a part, counted. -/
def ofList (copies : List MediaLabel) : Labels :=
  copies.foldl (fun labels label => labels.increment label) []

theorem ofList_append (copies : List MediaLabel) (label : MediaLabel) :
    ofList (copies ++ [label]) = (ofList copies).increment label :=
  foldl_append

variable (copies : List MediaLabel)

theorem ordered_ofList : (ofList copies).Ordered := by
  induction copies using reverseRecOn with
  | nil => exact List.Pairwise.nil
  | append_singleton copies label ih => rw [ofList_append]; exact ih.increment

theorem copiesOn_ofList : copiesOn label (ofList copies) = UInt16.ofNat (copies.count label) := by
  induction copies using reverseRecOn with
  | nil => rfl
  | append_singleton copies last ih =>
    rw [ofList_append, copiesOn_increment (ordered_ofList copies), ih, count_append,
      count_singleton]
    by_cases eq : last = label
    · rw [if_pos eq, if_pos (beq_iff_eq.mpr eq), UInt16.ofNat_add]
      rfl
    · rw [if_neg eq, if_neg (by simpa using eq)]
      rfl

theorem find_ofList_ne_none (mem : label ∈ copies) :
    find Prod.fst label (ofList copies) ≠ none := by
  induction copies using reverseRecOn with
  | nil => exact absurd mem not_mem_nil
  | append_singleton copies last ih =>
    rw [ofList_append, find_increment (ordered_ofList copies)]
    split
    · exact Option.some_ne_none _
    next ne =>
      rcases mem_append.mp mem with prev | isLast
      · exact ih prev
      · exact absurd (mem_singleton.mp isLast).symm ne

/-- The counts show at most the copies there are, and of the copies on one label only those
that its count shows. -/
theorem countLabels_ofList_le : (ofList copies).countLabels + copies.count label ≤
      copies.length + copies.count label % 2 ^ 16 := by
  induction copies using reverseRecOn with
  | nil => exact Nat.le_refl 0
  | append_singleton copies last ih =>
    have moved := @countLabels_increment (ofList copies) last (ordered_ofList copies)
    rw [copiesOn_ofList, ← ofList_append, UInt16.toNat_add, UInt16.toNat_ofNat'] at moved
    have one : (1 : UInt16).toNat = 1 := rfl
    rw [count_append, count_singleton, length_append, length_singleton]
    by_cases eq : last = label
    · subst eq
      rw [if_pos (beq_self_eq_true last)]
      omega
    · rw [if_neg (by simpa using eq)]
      omega

/-- Counts that do not wrap show all the copies. -/
theorem countLabels_ofList (fits : copies.length < 2 ^ 16) :
    (ofList copies).countLabels = copies.length := by
  induction copies using reverseRecOn with
  | nil => rfl
  | append_singleton copies last ih =>
    have moved := @countLabels_increment (ofList copies) last (ordered_ofList copies)
    rw [copiesOn_ofList, ← ofList_append, UInt16.toNat_add, UInt16.toNat_ofNat'] at moved
    have one : (1 : UInt16).toNat = 1 := rfl
    have some := copies.count_le_length (a := last)
    rw [length_append, length_singleton] at fits ⊢
    have before := ih (by omega)
    omega

end Labels

/-! ## The parts there are -/

namespace LabelledGoal

/-- The labels of a part. -/
def partLabels (goal : LabelledGoal) (type : ChunkPartType) : Labels :=
  (goal.find type.sliceType).elim [] fun slice => slice.parts.getD type.slicePart []

/-- The slices are in the order of their types, each with as many parts as its type has. -/
structure Shaped (goal : LabelledGoal) : Prop where
  ordered : FlatMap.Ordered LabelledSlice.type goal
  sized : ∀ slice ∈ goal, slice.parts.length = slice.type.expectedParts

variable {goal : LabelledGoal} {copy : PartCopy}

theorem Shaped.addPart (h : Shaped goal) : Shaped (goal.addPart copy) where
  ordered := h.ordered.upsert rfl fun _ => rfl
  sized := by
    refine forall_upsert h.sized ?_ fun slice _ sized => ?_
    · simp [addCopy, empty]
    · exact (length_modify _ _ _).trans sized

theorem Shaped.find_addPart (h : Shaped goal) {type : SliceType} : (goal.addPart copy).find type =
      if copy.type.sliceType = type then
        some (((goal.find type).getD (empty type)).addCopy copy.type.slicePart copy.label)
      else goal.find type := by
  have found : FlatMap.find LabelledSlice.type type (goal.addPart copy) = _ :=
    FlatMap.Ordered.find_upsert (by rfl) (by exact fun _ => rfl) h.ordered
  refine found.trans ?_
  split
  next eq =>
    subst eq
    unfold find
    cases FlatMap.find LabelledSlice.type copy.type.sliceType goal <;> rfl
  · rfl

/-- The parts of a slice, which are without copies while there is no such slice. -/
theorem Shaped.getD_find (h : Shaped goal) (type : ChunkPartType) :
    let slice := (goal.find type.sliceType).getD (empty type.sliceType)
    slice.parts.length = type.sliceType.expectedParts ∧
      slice.parts.getD type.slicePart [] = goal.partLabels type := by
  unfold partLabels
  cases found : goal.find type.sliceType with
  | none =>
    refine ⟨length_replicate, ?_⟩
    simp only [empty, Option.getD_none, getD_eq_getElem?_getD, getElem?_replicate]
    split <;> rfl
  | some slice =>
    obtain ⟨mem, eq⟩ := h.ordered.find_eq_some_iff.mp found
    exact ⟨eq ▸ h.sized slice mem, rfl⟩

/-- A new copy is counted at its part. -/
theorem Shaped.partLabels_addPart (h : Shaped goal) {type : ChunkPartType}
    (lt : type.slicePart < type.sliceType.expectedParts) : (goal.addPart copy).partLabels type =
      if copy.type = type then (goal.partLabels type).increment copy.label
      else goal.partLabels type := by
  obtain ⟨length, labels⟩ := h.getD_find type
  rw [partLabels, h.find_addPart, ← labels]
  by_cases sameSlice : copy.type.sliceType = type.sliceType
  · rw [if_pos sameSlice, Option.elim_some, addCopy]
    simp only [getD_eq_getElem?_getD, getElem?_modify, getElem?_eq_getElem (length ▸ lt)]
    by_cases samePart : copy.type.slicePart = type.slicePart
    · have eq : copy.type = type := by
        cases type; cases copy with | mk copyType _ => cases copyType; simp_all
      simp [eq]
    · simp [samePart, show copy.type ≠ type from fun eq => samePart (congrArg _ eq)]
  · rw [if_neg sameSlice, if_neg fun eq => sameSlice (congrArg _ eq), labels]
    rfl

theorem available_append (copies : List PartCopy) (copy : PartCopy) :
    available (copies ++ [copy]) = (available copies).addPart copy :=
  foldl_append

variable (copies : List PartCopy)

theorem shaped_available : Shaped (available copies) := by
  induction copies using reverseRecOn with
  | nil => exact ⟨List.Pairwise.nil, fun _ none => absurd none not_mem_nil⟩
  | append_singleton copies copy ih => rw [available_append]; exact ih.addPart

/-- The labels of the copies of a part. -/
def labelsOf (copies : List PartCopy) (type : ChunkPartType) : List MediaLabel :=
  (copies.filter (·.type = type)).map (·.label)

/-- The calculator has the copies of each part by label. -/
theorem partLabels_available {type : ChunkPartType}
    (lt : type.slicePart < type.sliceType.expectedParts) :
    (available copies).partLabels type = Labels.ofList (labelsOf copies type) := by
  induction copies using reverseRecOn with
  | nil => rfl
  | append_singleton copies copy ih =>
    rw [available_append, (shaped_available copies).partLabels_addPart lt, ih]
    unfold labelsOf
    rw [filter_append, map_append]
    by_cases eq : copy.type = type
    · rw [if_pos eq, filter_cons_of_pos (by simpa using eq)]
      exact (Labels.ofList_append _ _).symm
    · rw [if_neg eq, filter_cons_of_neg (by simpa using eq)]
      simp

theorem getD_parts_available {slice : LabelledSlice} (mem : slice ∈ available copies)
    {part : Nat} (lt : part < slice.type.expectedParts) :
    slice.parts.getD part [] = Labels.ofList (labelsOf copies ⟨slice.type, part⟩) := by
  have found := (shaped_available copies).ordered.find_eq_some_iff.mpr ⟨mem, rfl⟩
  have labels := @partLabels_available copies ⟨slice.type, part⟩ lt
  rw [partLabels, find, found] at labels
  exact labels

/-- The number of copies of a part. -/
def copiesOf (copies : List PartCopy) (type : ChunkPartType) : Nat :=
  (labelsOf copies type).length

/-- The counts show at most the copies there are. -/
theorem countLabels_le_copiesOf (copies : List PartCopy) (type : ChunkPartType) :
    (Labels.ofList (labelsOf copies type)).countLabels ≤ copiesOf copies type := by
  have bound := @Labels.countLabels_ofList_le MediaLabel.kWildcard (labelsOf copies type)
  unfold copiesOf
  omega

/-- The counts of the copies of a part do not wrap. -/
def Counted (copies : List PartCopy) : Prop :=
  ∀ type, copiesOf copies type < 2 ^ 16

variable {copies}

theorem Counted.toSlice_copies (counted : Counted copies) {slice : LabelledSlice}
    (mem : slice ∈ available copies) : slice.toSlice.copies =
      (List.range slice.type.expectedParts).map fun part => copiesOf copies ⟨slice.type, part⟩ := by
  have sized := (shaped_available copies).sized slice mem
  refine ext_getElem (by simp [LabelledSlice.toSlice, sized]) fun part there _ => ?_
  have lt : part < slice.type.expectedParts := by
    simpa [LabelledSlice.toSlice, sized] using there
  have labels := getD_parts_available copies mem lt
  have all := Labels.countLabels_ofList _ (counted ⟨slice.type, part⟩)
  rw [← labels] at all
  simpa [LabelledSlice.toSlice, copiesOf, sized, lt] using all

end LabelledGoal

/-! ## Losses -/

open LabelledGoal

variable {copies left : List PartCopy}

theorem copiesOf_cons (copy : PartCopy) (copies : List PartCopy) (type : ChunkPartType) :
    copiesOf (copy :: copies) type = copiesOf copies type + if copy.type = type then 1 else 0 := by
  unfold copiesOf labelsOf
  by_cases eq : copy.type = type <;> simp [eq]

theorem copiesOf_le (lost : left.Sublist copies) (type : ChunkPartType) :
    copiesOf left type ≤ copiesOf copies type :=
  ((lost.filter _).map _).length_le

theorem copiesOf_pos_iff {type : ChunkPartType} :
    0 < copiesOf copies type ↔ type ∈ copies.map (·.type) := by
  simp [copiesOf, labelsOf, length_pos_iff_exists_mem]

theorem distinctParts_eq (type : SliceType) : distinctParts (copies.map (·.type)) type =
      (List.range type.expectedParts).countP fun part => 0 < copiesOf copies ⟨type, part⟩ :=
  countP_congr fun part _ => by
    rw [decide_eq_true_iff, decide_eq_true_iff]
    exact copiesOf_pos_iff.symm

theorem sum_copiesOf_cons (copy : PartCopy) (copies : List PartCopy) (types : List ChunkPartType) :
    (types.map (copiesOf (copy :: copies))).sum =
      (types.map (copiesOf copies)).sum + types.count copy.type := by
  induction types with
  | nil => rfl
  | cons type types ih =>
    rw [map_cons, map_cons, sum_cons, sum_cons, ih, copiesOf_cons, count_cons]
    by_cases eq : copy.type = type
    · simp only [eq, beq_self_eq_true]
      omega
    · rw [if_neg eq, if_neg (by simpa using Ne.symm eq)]
      omega

/-- What is lost of different parts is lost in all. -/
theorem sum_copiesOf_add_length_le {types : List ChunkPartType} (nodup : types.Nodup)
    (lost : left.Sublist copies) : (types.map (copiesOf copies)).sum + left.length ≤
      (types.map (copiesOf left)).sum + copies.length := by
  induction lost with
  | slnil => exact Nat.le_refl _
  | cons copy _ ih =>
    have once := nodup_iff_count_le_one.mp nodup copy.type
    rw [sum_copiesOf_cons, length_cons]
    omega
  | cons_cons copy _ ih =>
    rw [sum_copiesOf_cons, sum_copiesOf_cons, length_cons, length_cons]
    omega

/-- A part that is lost takes all of its copies. -/
theorem countP_add_sum_le {kept there : Nat → Nat} (fewer : ∀ part, kept part ≤ there part)
    (parts : List Nat) : parts.countP (0 < there ·) + (parts.map kept).sum ≤
      parts.countP (0 < kept ·) + (parts.map there).sum := by
  induction parts with
  | nil => exact Nat.le_refl _
  | cons part parts ih =>
    have less := fewer part
    rw [countP_cons, countP_cons, map_cons, sum_cons]
    by_cases some : 0 < there part <;> by_cases remains : 0 < kept part <;>
      simp only [some, remains, decide_false] <;> simp <;> omega

/-! ## The level -/

theorem SliceType.isStandard_iff {type : SliceType} : type.isStandard = true ↔ type = 0 :=
  decide_eq_true_iff

section

variable {slice : LabelledSlice} (counted : Counted copies)
include counted

/-- What a slice of the calculator is worth: a whole chunk is there as often as it has copies,
and another slice has the different parts beyond those it needs. -/
theorem evalSliceRedundancyLevel_available (mem : slice ∈ available copies) :
    slice.toSlice.evalSliceRedundancyLevel =
      if slice.type.isStandard then (copiesOf copies ⟨slice.type, 0⟩ : Int) - 1
      else if slice.type.isXor || slice.type.isEC then
        (distinctParts (copies.map (·.type)) slice.type : Int) - slice.type.getNumberOfDataParts
      else -1 := by
  unfold Slice.evalSliceRedundancyLevel
  rw [counted.toSlice_copies mem, distinctParts_eq]
  show (if slice.type.isStandard = true then _ else if _ then _ else _) = _
  split
  next standard =>
    have one : slice.type.expectedParts = 1 := by
      rw [SliceType.isStandard_iff.mp standard]
      rfl
    rw [one]
    simp
  · rw [countP_map]
    rfl

theorem evalSliceRedundancyLevel_nonneg_iff (mem : slice ∈ available copies) :
    0 ≤ slice.toSlice.evalSliceRedundancyLevel ↔ slice.type.Readable ∧
      slice.type.getNumberOfDataParts ≤ distinctParts (copies.map (·.type)) slice.type := by
  rw [evalSliceRedundancyLevel_available counted mem]
  unfold SliceType.Readable
  split
  next standard =>
    have zero := SliceType.isStandard_iff.mp standard
    have one : distinctParts (copies.map (·.type)) slice.type =
        if 0 < copiesOf copies ⟨slice.type, 0⟩ then 1 else 0 := by
      rw [distinctParts_eq, zero]
      show [0].countP _ = _
      simp
    have data : slice.type.getNumberOfDataParts = 1 := by rw [zero]; rfl
    rw [one]
    simp only [standard, true_or, true_and]
    split <;> omega
  next notStandard =>
    split
    next sliced =>
      rw [Bool.or_eq_true] at sliced
      simp only [sliced, or_true, true_and]
      omega
    next other =>
      rw [Bool.or_eq_true] at other
      simp [notStandard, other]

omit counted in
/-- A slice with parts is there. -/
theorem exists_slice_of_distinctParts {type : SliceType}
    (some : 0 < distinctParts (copies.map (·.type)) type) :
    ∃ slice ∈ available copies, slice.type = type := by
  rw [distinctParts_eq] at some
  obtain ⟨part, inRange, there⟩ := countP_pos_iff.mp some
  have labels := @partLabels_available copies ⟨type, part⟩ (mem_range.mp inRange)
  cases found : (available copies).find type with
  | none =>
    obtain ⟨label, mem⟩ := length_pos_iff_exists_mem.mp (of_decide_eq_true there)
    rw [partLabels, found] at labels
    exact absurd (by rw [← labels]; rfl) (Labels.find_ofList_ne_none _ mem)
  | some slice => exact ⟨slice, (shaped_available copies).ordered.find_eq_some_iff.mp found⟩

omit counted in
/-- The level is at least -1, and not negative just when some slice is readable. -/
theorem evalRedundancyLevel_nonneg_iff_exists (goal : LabelledGoal) :
    0 ≤ goal.toGoal.evalRedundancyLevel + 1 ∧ (0 ≤ goal.toGoal.evalRedundancyLevel ↔
        ∃ slice ∈ goal, 0 ≤ slice.toSlice.evalSliceRedundancyLevel) := by
  unfold Goal.evalRedundancyLevel toGoal
  induction goal with
  | nil => simp
  | cons slice goal ih =>
    simp only [map_cons, sum_cons, exists_mem_cons_iff]
    rw [← ih.2]
    omega

/-- The level is negative just when no slice has enough parts. -/
theorem evalRedundancyLevel_nonneg_iff :
    0 ≤ (available copies).toGoal.evalRedundancyLevel ↔ Recoverable (copies.map (·.type)) := by
  rw [(evalRedundancyLevel_nonneg_iff_exists _).2]
  constructor
  · rintro ⟨slice, mem, enough⟩
    exact ⟨slice.type, (evalSliceRedundancyLevel_nonneg_iff counted mem).mp enough⟩
  · rintro ⟨type, readable, enough⟩
    obtain ⟨slice, mem, rfl⟩ := exists_slice_of_distinctParts (type.dataParts_pos.trans_le enough)
    exact ⟨slice, mem, (evalSliceRedundancyLevel_nonneg_iff counted mem).mpr ⟨readable, enough⟩⟩

/-- The types of the parts of a slice. -/
def LabelledSlice.partTypes (slice : LabelledSlice) : List ChunkPartType :=
  (List.range slice.type.expectedParts).map fun part => ⟨slice.type, part⟩

/-- When too few parts are left, a slice has lost what it was worth. -/
theorem worth_add_left_le (mem : slice ∈ available copies)
    (lost : left.Sublist copies) (unreadable : ¬Recoverable (left.map (·.type))) :
    max (slice.toSlice.evalSliceRedundancyLevel + 1) 0 +
        ((slice.partTypes.map (copiesOf left)).sum : Int) ≤
      (slice.partTypes.map (copiesOf copies)).sum := by
  have few : slice.type.Readable →
      (List.range slice.type.expectedParts).countP
        (fun part => 0 < copiesOf left ⟨slice.type, part⟩) < slice.type.getNumberOfDataParts :=
    fun readable => by
      rw [← distinctParts_eq]
      exact Nat.lt_of_not_le fun enough => unreadable ⟨slice.type, readable, enough⟩
  have losses := countP_add_sum_le (fun part => copiesOf_le lost ⟨slice.type, part⟩)
    (List.range slice.type.expectedParts)
  have fewer : (slice.partTypes.map (copiesOf left)).sum ≤
      (slice.partTypes.map (copiesOf copies)).sum :=
    sum_le_sum fun type _ => copiesOf_le lost type
  rw [evalSliceRedundancyLevel_available counted mem]
  rw [partTypes, map_map, map_map] at fewer ⊢
  split
  next standard =>
    have none := few (.inl standard)
    rw [SliceType.isStandard_iff.mp standard] at none fewer ⊢
    -- the only part is the whole chunk
    have one : List.range (SliceType.expectedParts 0) = [0] := rfl
    rw [one, countP_singleton] at none
    have nothing : copiesOf left ⟨0, 0⟩ = 0 := by
      by_contra some
      rw [if_pos (decide_eq_true (Nat.pos_of_ne_zero some))] at none
      exact absurd none (Nat.lt_irrefl 1)
    simp only [one, map_cons, map_nil, sum_singleton, Function.comp_apply]
    omega
  next =>
    split
    next sliced =>
      have needed := few (.inr (by simpa using sliced))
      rw [distinctParts_eq]
      simp only [Function.comp_def] at fewer ⊢
      omega
    · omega

omit counted in
theorem nodup_partTypes {goal : LabelledGoal} (h : Shaped goal) :
    (goal.flatMap partTypes).Nodup := by
  refine nodup_flatMap.mpr ⟨fun slice _ => ?_, ?_⟩
  · exact nodup_range.map fun first second eq => congrArg ChunkPartType.slicePart eq
  · refine h.ordered.imp fun {first second} prev type inFirst inSecond => ?_
    obtain ⟨_, _, rfl⟩ := mem_map.mp inFirst
    obtain ⟨_, _, eq⟩ := mem_map.mp inSecond
    exact absurd (congrArg ChunkPartType.sliceType eq) (Nat.ne_of_gt prev)

variable (target : LabelledGoal)

/-- Losses that make the chunk unreadable are more than the level. -/
theorem redundancyLevel_lt_losses (lost : left.Sublist copies)
    (unreadable : ¬Recoverable (left.map (·.type))) :
    Calculator.redundancyLevel ⟨available copies, target⟩ + left.length < copies.length := by
  have worth : ∀ goal : LabelledGoal, (∀ slice ∈ goal, slice ∈ available copies) →
      goal.toGoal.evalRedundancyLevel + 1 +
          (((goal.flatMap partTypes).map (copiesOf left)).sum : Int) ≤
        (((goal.flatMap partTypes).map (copiesOf copies)).sum : Nat) := by
    intro goal members
    unfold Goal.evalRedundancyLevel toGoal
    induction goal with
    | nil => simp
    | cons slice goal ih =>
      have here := worth_add_left_le counted (members slice mem_cons_self) lost unreadable
      have rest := ih fun other mem => members other (mem_cons_of_mem _ mem)
      simp only [flatMap_cons, map_append, sum_append, map_cons, sum_cons]
      omega
  have total := sum_copiesOf_add_length_le (nodup_partTypes (shaped_available copies)) lost
  have level := worth (available copies) fun _ mem => mem
  show (available copies).toGoal.evalRedundancyLevel + _ < _
  omega

end

/-- A level holds what it says: any loss of that many copies leaves enough parts, and without
enough parts it is negative. -/
def LevelExact (copies : List PartCopy) (level : Int) : Prop :=
  (0 ≤ level → ∀ left : List PartCopy, left.Sublist copies → copies.length = left.length + level →
      Recoverable (left.map (·.type))) ∧
    (level < 0 ↔ ¬Recoverable (copies.map (·.type)))

/-! ## The parts of a chunk -/

/-- `csdbentry::kMaxIdCount` [SPEC chunkserver_db.h:35] -/
def kMaxIdCount : Nat := 8192

/-- The parts of a chunk with the numbers of their servers, which have each part at most once. -/
structure ServerParts where
  parts : List (ChunkPartType × Fin kMaxIdCount)
  nodup : parts.Nodup
  known : ∀ part ∈ parts, part.1.sliceType ≤ SliceType.kECLast ∧
    part.1.slicePart < part.1.sliceType.expectedParts

namespace ServerParts

variable (chunk : ServerParts) (label : Fin kMaxIdCount → MediaLabel)

/-- The copies with the labels of their servers. -/
def partCopies : List PartCopy :=
  chunk.parts.map fun part => ⟨part.1, label part.2⟩

theorem copiesOf_le (type : ChunkPartType) :
    copiesOf (chunk.partCopies label) type ≤ kMaxIdCount := by
  have servers : ((chunk.parts.filter (·.1 = type)).map Prod.snd).Nodup := by
    refine (chunk.nodup.filter _).map_on fun first inFirst second inSecond same => ?_
    have eq := of_decide_eq_true (mem_filter.mp inFirst).2
    exact Prod.ext (eq.trans (of_decide_eq_true (mem_filter.mp inSecond).2).symm) same
  have bound := servers.length_le_card
  rw [Fintype.card_fin, length_map] at bound
  simpa [copiesOf, labelsOf, partCopies, filter_map, Function.comp_def] using bound

theorem counted : Counted (chunk.partCopies label) := fun type =>
  (chunk.copiesOf_le label type).trans_lt (by decide)

/-- There are only so many different numbers below three bounds. -/
theorem length_le_of_bounds {numbers : List (Nat × Nat × Nat)} (nodup : numbers.Nodup)
    {a b c : Nat} (lt : ∀ n ∈ numbers, n.1 < a ∧ n.2.1 < b ∧ n.2.2 < c) :
    numbers.length ≤ a * (b * c) := by
  have among : numbers.toFinset ⊆ Finset.range a ×ˢ Finset.range b ×ˢ Finset.range c :=
    fun n mem => by simpa using lt n (mem_toFinset.mp mem)
  simpa [toFinset_card_of_nodup nodup] using Finset.card_le_card among

theorem expectedParts_le (type : Nat) (lt : type < 1002) : SliceType.expectedParts type ≤ 64 := by
  unfold SliceType.expectedParts
  split
  · have all : ∀ type < SliceType.kECFirst,
        [1, 1, 3, 4, 5, 6, 7, 8, 9, 10].getD type 0 ≤ 64 := by decide
    exact all type ‹_›
  · unfold SliceType.kECFirst
    omega

/-- There are not more copies than an `int` can count. -/
theorem length_partCopies_lt : (chunk.partCopies label).length < 2 ^ 31 := by
  have nodup : (chunk.parts.map fun part =>
      (part.1.sliceType, part.1.slicePart, part.2.val)).Nodup := by
    refine chunk.nodup.map fun first second same => ?_
    obtain ⟨⟨_, _⟩, _⟩ := first
    obtain ⟨⟨_, _⟩, _⟩ := second
    simpa [Fin.ext_iff, and_assoc] using same
  have few := length_le_of_bounds nodup (forall_mem_map.mpr fun part mem =>
    have type : part.1.sliceType < 1002 := Nat.lt_of_le_of_lt (chunk.known part mem).1 (by decide)
    ⟨type, (chunk.known part mem).2.trans_le (expectedParts_le _ type), part.2.isLt⟩)
  rw [length_map] at few
  rw [partCopies, length_map]
  exact few.trans_lt (by decide)

end ServerParts

/-- The level that is reported for the parts of a chunk holds what it says, and the counts and the
level are far from the bounds of their types. -/
theorem redundancyLevel_exact (chunk : ServerParts) (label : Fin kMaxIdCount → MediaLabel)
    (target : LabelledGoal) :
    let copies := chunk.partCopies label
    let level := Calculator.redundancyLevel ⟨available copies, target⟩
    LevelExact copies level ∧ level + 1 < 2 ^ 31 ∧
      ∀ slice ∈ available copies, ∀ part < slice.type.expectedParts,
        (slice.parts.getD part []).countLabels ≤ kMaxIdCount := by
  have counted := chunk.counted label
  refine ⟨⟨fun _ left lost losses => ?_, ?_⟩, ?_, fun slice mem part lt => ?_⟩
  · by_contra unreadable
    have more := redundancyLevel_lt_losses counted target lost unreadable
    omega
  · rw [← Int.not_le, not_iff_not]
    exact evalRedundancyLevel_nonneg_iff counted
  · have nothing : ¬Recoverable (([] : List PartCopy).map (·.type)) := by
      rintro ⟨type, _, enough⟩
      have none : distinctParts [] type = 0 := by simp [distinctParts]
      exact absurd (type.dataParts_pos.trans_le enough) (by simp [none])
    have level := redundancyLevel_lt_losses counted target (nil_sublist _) nothing
    have few := chunk.length_partCopies_lt label
    rw [length_nil] at level
    omega
  · rw [getD_parts_available _ mem lt, Labels.countLabels_ofList _ (counted _)]
    exact chunk.copiesOf_le label _

end LeilFS.Chunks
