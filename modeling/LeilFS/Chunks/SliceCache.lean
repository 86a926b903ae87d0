/-
Module: LeilFS.Chunks.SliceCache
Purpose: How a slice stores the labels of all its parts in one vector, which slices compare as
  equal, and the cache that the calculators keep assignments in.
Trusted boundary: none
-/
import LeilFS.Chunks.Calculator

namespace LeilFS.Chunks

open List

/-! ## Storage -/

/-- [SPEC goal.h:296-436] The labels of the parts, one part after the other, and how many
labels each part has. -/
structure FlatSlice where
  type : SliceType
  partSize : List Nat
  data : Labels
  sized : partSize.length = type.expectedParts
  filled : partSize.sum = data.length

namespace FlatSlice

/-- `slice[part]` for all parts: the range of the vector from the sum of the sizes before it on. -/
def parts (slice : FlatSlice) : List Labels := slice.partSize.splitLengths slice.data

theorem length_parts (slice : FlatSlice) : slice.parts.length = slice.type.expectedParts :=
  (length_splitLengths ..).trans slice.sized

/-- The parts in a new vector. -/
def ofParts (type : SliceType) (parts : List Labels) (sized : parts.length = type.expectedParts) :
    FlatSlice where
  type := type
  partSize := parts.map length
  data := parts.flatten
  sized := by rw [length_map, sized]
  filled := length_flatten.symm

/-- `Slice(type)` -/
def empty (type : SliceType) : FlatSlice :=
  ofParts type (replicate type.expectedParts []) length_replicate

/-- `slice[part] = labels` replaces the range of the part
[SPEC vector_range.h:76-110]. -/
def assign (slice : FlatSlice) (part : Nat) (labels : Labels) : FlatSlice :=
  ofParts slice.type (slice.parts.set part labels) (by rw [length_set, slice.length_parts])

/-- `operator==` [SPEC goal.h:396-398] -/
def equal (slice other : FlatSlice) : Bool := slice.type = other.type && slice.data = other.data

/-- Two slices compare as they should exactly when they do not have the same labels in parts of
different sizes. -/
theorem equal_iff (slice other : FlatSlice) :
    (slice.equal other = true ↔ slice.type = other.type ∧
        ∀ part < slice.type.expectedParts, slice.parts[part]? = other.parts[part]?) ↔
      (slice.type = other.type → slice.data = other.data → slice.partSize = other.partSize) := by
  have sizes (slice : FlatSlice) : slice.parts.map length = slice.partSize :=
    map_splitLengths_length _ _ slice.filled.le
  have whole (slice : FlatSlice) : slice.parts.flatten = slice.data :=
    flatten_splitLengths _ _ slice.filled.ge
  have each (type : slice.type = other.type) :
      (∀ part < slice.type.expectedParts, slice.parts[part]? = other.parts[part]?) ↔
        slice.parts = other.parts := by
    refine ⟨fun same => ext_getElem? fun part => ?_, fun same part _ => by rw [same]⟩
    by_cases inside : part < slice.type.expectedParts
    · exact same part inside
    · rw [getElem?_eq_none (by rw [length_parts]; omega),
        getElem?_eq_none (by rw [length_parts, ← type]; omega)]
  simp only [equal, Bool.and_eq_true, decide_eq_true_eq]
  constructor
  · intro exact type data
    rw [← sizes, ← sizes, (each type).mp (exact.mp ⟨type, data⟩).2]
  · intro condition
    refine and_congr_right fun type => ?_
    rw [each type]
    refine ⟨fun data => ?_, fun same => ?_⟩
    · rw [parts, parts, data, condition type data]
    · rw [← whole, ← whole, same]

/-- One label in the first part, and the same label in the second. -/
theorem equal_in_other_part :
    let label : MediaLabel := ⟨1, by decide⟩
    let first := (empty SliceType.kXor2).assign 0 [(label, 1)]
    let second := (empty SliceType.kXor2).assign 1 [(label, 1)]
    first.equal second = true ∧ first.parts[0]? ≠ second.parts[0]? := by
  decide

end FlatSlice

/-! ## The cache of assignments -/

/-- [SPEC linear_assignment_cache.h:57-108] What the optimizer made of two slices. -/
structure OptimizerInputOutput where
  target : LabelledSlice := .empty 1
  source : LabelledSlice := .empty 1
  assignment : Nat → Nat := fun _ => 0

/-- [SPEC linear_assignment_cache.h:110-187] The entries by the hash of the slices. Looking
for one that is not there puts in an entry for two slices of one part. -/
abbrev AssignmentCache := Int → OptimizerInputOutput

namespace AssignmentCache

-- `hashSlicePair`, and what `auctionOptimization` makes of the costs of two slices: both are
-- computed from the types and the parts of the slices alone
variable (hash : LabelledSlice → LabelledSlice → Int)
  (assignment : LabelledSlice → LabelledSlice → Nat → Nat)

/-- [SPEC chunk_copies_calculator.cc:106-141] The assignment for two slices, from the entry
of their hash if it is for these slices. -/
def lookup (cache : AssignmentCache) (target source : LabelledSlice) :
    (Nat → Nat) × AssignmentCache :=
  let entry := cache (hash target source)
  if entry.target = target ∧ entry.source = source then (entry.assignment, cache)
  else
    (assignment target source,
      Function.update cache (hash target source) ⟨target, source, assignment target source⟩)

/-- One slice of the target [SPEC chunk_copies_calculator.cc:90-150]. -/
def optimizeSlice (available : LabelledGoal) (useOptimizer : Bool) (cache : AssignmentCache)
    (slice : LabelledSlice) : LabelledSlice × AssignmentCache :=
  match available.find slice.type with
  | none => (slice, cache)
  | some source =>
      if !useOptimizer || slice.parts.length ≤ 1 || slice.isSkippable then (slice, cache)
      else
        let found := lookup hash assignment cache slice source
        ({ slice with
            parts := (range slice.parts.length).map fun k => slice.parts.getD (found.1 k) [] },
          found.2)

/-- The slices of the target, one after the other. -/
def optimizeSlices (available : LabelledGoal) (useOptimizer : Bool) :
    LabelledGoal → AssignmentCache → LabelledGoal × AssignmentCache
  | [], cache => ([], cache)
  | slice :: rest, cache =>
      let first := optimizeSlice hash assignment available useOptimizer cache slice
      let later := optimizeSlices available useOptimizer rest first.2
      (first.1 :: later.1, later.2)

/-- Calls of `optimize` that share a cache: what becomes of the calculators. -/
def optimizeAll : List (Bool × Calculator) → AssignmentCache → List Calculator
  | [], _ => []
  | (useOptimizer, calculator) :: calls, cache =>
      let optimized :=
        optimizeSlices hash assignment calculator.available useOptimizer calculator.target cache
      { calculator with target := optimized.1 } :: optimizeAll calls optimized.2

/-- Every entry for slices of several parts has their assignment. -/
def Sound (cache : AssignmentCache) : Prop :=
  ∀ key, 1 < (cache key).target.parts.length →
    (cache key).assignment = assignment (cache key).target (cache key).source

variable {assignment} {cache : AssignmentCache}

theorem Sound.lookup (h : Sound assignment cache) {target : LabelledSlice}
    (several : 1 < target.parts.length) (source : LabelledSlice) :
    (lookup hash assignment cache target source).1 = assignment target source ∧
      Sound assignment (lookup hash assignment cache target source).2 := by
  unfold AssignmentCache.lookup
  dsimp only
  split
  next found =>
    refine ⟨?_, h⟩
    rw [h _ (by rwa [found.1]), found.1, found.2]
  · refine ⟨rfl, fun key => ?_⟩
    dsimp only
    rcases eq_or_ne key (hash target source) with rfl | other
    · simp
    · rw [Function.update_of_ne other]
      exact h key

/-- The target becomes what it would become without the cache. -/
theorem Sound.optimizeSlices (h : Sound assignment cache) (available : LabelledGoal)
    (useOptimizer : Bool) (target : LabelledGoal) :
    (optimizeSlices hash assignment available useOptimizer target cache).1 =
        (Calculator.optimize useOptimizer assignment ⟨available, target⟩).target ∧
      Sound assignment (optimizeSlices hash assignment available useOptimizer target cache).2 := by
  induction target generalizing cache with
  | nil => exact ⟨rfl, h⟩
  | cons slice rest ih =>
    have first :
        [(optimizeSlice hash assignment available useOptimizer cache slice).1] =
          (Calculator.optimize useOptimizer assignment ⟨available, [slice]⟩).target ∧
        Sound assignment (optimizeSlice hash assignment available useOptimizer cache slice).2 := by
      unfold optimizeSlice Calculator.optimize
      simp only [map_cons, map_nil]
      cases available.find slice.type with
      | none => exact ⟨rfl, h⟩
      | some source =>
        dsimp only
        split
        · exact ⟨rfl, h⟩
        next apart =>
          have several : 1 < slice.parts.length := by
            simp at apart
            omega
          obtain ⟨eq, kept⟩ := h.lookup hash several source
          exact ⟨by rw [eq], kept⟩
    obtain ⟨eq, kept⟩ := ih first.2
    refine ⟨?_, kept⟩
    exact congrArg₂ (· ++ ·) first.1 eq

/-- The calculators become what they would become without the cache. -/
theorem optimize_transparent (assignment : LabelledSlice → LabelledSlice → Nat → Nat)
    (calls : List (Bool × Calculator)) :
    optimizeAll hash assignment calls (fun _ => {}) =
      calls.map fun (useOptimizer, calculator) => calculator.optimize useOptimizer assignment := by
  have start : Sound assignment fun _ => {} :=
    fun key several => absurd several (show ¬1 < (LabelledSlice.empty 1).parts.length by decide)
  generalize (fun _ => {} : AssignmentCache) = cache at start ⊢
  induction calls generalizing cache with
  | nil => rfl
  | cons call calls ih =>
    obtain ⟨same, kept⟩ := start.optimizeSlices hash call.2.available call.1 call.2.target
    exact congrArg₂ (· :: ·) (congrArg (Calculator.mk call.2.available) same) (ih _ kept)

end AssignmentCache

end LeilFS.Chunks
