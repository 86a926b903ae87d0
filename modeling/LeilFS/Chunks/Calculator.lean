/-
Module: LeilFS.Chunks.Calculator
Purpose: Goals with the labels of the chunkservers, how the goals of several files are
  merged, and the calculator that compares the parts of a chunk with its goal.
Trusted boundary: none
-/
import LeilFS.Chunks.Copies
import LeilFS.Lib.FlatMap

namespace LeilFS.Chunks

/-! ## Labels -/

/-- [SPEC media_label.h:42-132, media_label.cc:32-60] The handle 0 is never given
to a label, so that a part has at most as many labels as its 16-bit size can count. -/
structure MediaLabel where
  handle : UInt16
  registered : handle ≠ 0

/-- The label of any server.  Its handle is the highest. -/
def MediaLabel.kWildcard : MediaLabel := ⟨0xFFFF, by decide⟩

/-- Labels are ordered by their handles. -/
instance : LinearOrder MediaLabel :=
  LinearOrder.lift' (fun label => label.handle.toNat) fun first second same => by
    cases first
    cases second
    simpa using UInt16.toNat_inj.mp same

/-- `flat_map<MediaLabel, uint16_t>`: the numbers of copies by label, in the order of the
labels [SPEC goal.h:299-307]. -/
abbrev Labels := List (MediaLabel × UInt16)

namespace Labels

/-- `++labels[label]` -/
def increment (label : MediaLabel) (labels : Labels) : Labels :=
  FlatMap.upsert Prod.fst label (label, 1) (fun entry => (entry.1, entry.2 + 1)) labels

/-- `--labels.find(label)->second`, if the label is there. -/
def decrement (label : MediaLabel) (labels : Labels) : Labels :=
  FlatMap.modify Prod.fst label (fun entry => (entry.1, entry.2 - 1)) labels

/-- The number of copies on a label. -/
def copiesOn (label : MediaLabel) (labels : Labels) : UInt16 :=
  (FlatMap.find Prod.fst label labels).elim 0 Prod.snd

/-- [SPEC goal.h:404-421] -/
def countLabels (labels : Labels) : Nat :=
  (labels.map (·.2.toNat)).sum

/-! ### Unions of labels -/

/-- What the loop over the labels of the first part has so far
[SPEC goal.cc:111-158]. -/
structure Union where
  result : Labels := []
  firstSum : Nat := 0
  secondSum : Nat := 0
  mergedSum : Nat := 0

namespace Union

/-- A label that only the second part has. -/
def addSecond (union : Union) (entry : MediaLabel × UInt16) : Union :=
  { union with
    result := union.result ++ [entry]
    secondSum := union.secondSum + entry.2.toNat
    mergedSum := union.mergedSum + entry.2.toNat }

/-- A label that only the first part has. -/
def addFirst (union : Union) (entry : MediaLabel × UInt16) : Union :=
  { union with
    result := union.result ++ [entry]
    firstSum := union.firstSum + entry.2.toNat
    mergedSum := union.mergedSum + entry.2.toNat }

/-- A label that both parts have. -/
def addBoth (union : Union) (label : MediaLabel) (first second : UInt16) : Union :=
  { result := union.result ++ [(label, max first second)]
    firstSum := union.firstSum + first.toNat
    secondSum := union.secondSum + second.toNat
    mergedSum := union.mergedSum + (max first second).toNat }

/-- The labels of the second part after the last one of the first. -/
def addRest (union : Union) (entry : MediaLabel × UInt16) : Union :=
  if entry.1 ≠ MediaLabel.kWildcard then union.addSecond entry
  else { union with secondSum := union.secondSum + entry.2.toNat }

/-- The loop over the labels of the first part.  It ends at the wildcard, which is last. -/
def loop : Labels → Labels → Union → Union
  | [], second, union => second.foldl addRest union
  | (label, count) :: first, second, union =>
      if label = MediaLabel.kWildcard then
        second.foldl addRest { union with firstSum := union.firstSum + count.toNat }
      else
        let union := (second.takeWhile (·.1 < label)).foldl addSecond union
        match second.dropWhile (·.1 < label) with
        | [] => loop first [] (union.addFirst (label, count))
        | (other, otherCount) :: second =>
            if label < other then
              loop first ((other, otherCount) :: second) (union.addFirst (label, count))
            else loop first second (union.addBoth label count otherCount)

/-- The wildcards that are needed besides the labels. -/
def finish (union : Union) : Labels :=
  let wildcards := max union.firstSum union.secondSum - union.mergedSum
  if 0 < wildcards then union.result ++ [(MediaLabel.kWildcard, UInt16.ofNat wildcards)]
  else union.result

end Union

/-- [SPEC goal.cc:111-158] -/
def makeLabelsUnion (first second : Labels) : Labels :=
  (Union.loop first second {}).finish

/-! ### Comparison with the labels of a goal -/

/-- What is to be recovered and to be removed, and the wildcards that are not matched yet. -/
structure OperationCount where
  recover : Nat := 0
  remove : Nat := 0
  wcount : Nat

/-- Copies that no label of the goal asks for are matched with wildcards as long as there are
some. -/
def OperationCount.surplus (state : OperationCount) (copies : Nat) : OperationCount :=
  { state with
    remove := state.remove + (copies - min state.wcount copies)
    wcount := state.wcount - min state.wcount copies }

/-- The copies of a label that the goal asks for
[SPEC chunk_copies_calculator.cc:236-243]. -/
def OperationCount.compare (state : OperationCount) (wanted there : UInt16) : OperationCount :=
  if wanted < there then state.surplus (there.toNat - wanted.toNat)
  else if there < wanted then
    { state with recover := state.recover + (wanted.toNat - there.toNat) }
  else state

/-- The copies of the labels that come after those of the goal. -/
def OperationCount.rest (state : OperationCount) (src : Labels) : OperationCount :=
  src.foldl (fun state entry => state.surplus entry.2.toNat) state

def OperationCount.loop : Labels → Labels → OperationCount → OperationCount
  | [], src, state => state.rest src
  | (label, wanted) :: dst, src, state =>
      if label = MediaLabel.kWildcard then state.rest src
      else
        let state := state.rest (src.takeWhile (·.1 < label))
        match src.dropWhile (·.1 < label) with
        | [] => loop dst [] { state with recover := state.recover + wanted.toNat }
        | (other, there) :: src =>
            if other = label then loop dst src (state.compare wanted there)
            else
              loop dst ((other, there) :: src)
                { state with recover := state.recover + wanted.toNat }

/-- [SPEC chunk_copies_calculator.cc:211-257] -/
def operationCount (src dst : Labels) : Nat × Nat :=
  let state :=
    OperationCount.loop dst src { wcount := (copiesOn MediaLabel.kWildcard dst).toNat }
  (state.recover + state.wcount, state.remove)

/-- The labels a copy may be removed from, how many copies the goal does not ask for by
label, and the wildcards of the goal [SPEC chunk_copies_calculator.cc:510-559]. -/
structure RemovePool where
  result : List MediaLabel := []
  wcount : Nat := 0
  wildcardTargetCount : Nat := 0

/-- All the copies of these labels are more than the goal asks for by label. -/
def RemovePool.rest (pool : RemovePool) (available : Labels) : RemovePool :=
  { pool with
    result := pool.result ++ available.map (·.1)
    wcount := pool.wcount + available.countLabels }

def RemovePool.loop : Labels → Labels → RemovePool → RemovePool
  | [], available, pool => pool.rest available
  | (label, wanted) :: target, available, pool =>
      if label = MediaLabel.kWildcard then
        { pool with wildcardTargetCount := wanted.toNat }.rest available
      else
        let pool := pool.rest (available.takeWhile (·.1 < label))
        match available.dropWhile (·.1 < label) with
        | [] => loop target [] pool
        | (other, there) :: available =>
            if other = label then
              loop target available
                (if wanted < there then
                  { pool with
                    result := pool.result ++ [label]
                    wcount := pool.wcount + (there.toNat - wanted.toNat) }
                else pool)
            else loop target ((other, there) :: available) pool

/-- [SPEC chunk_copies_calculator.cc:522-558] -/
def removePool (available target : Labels) : List MediaLabel :=
  let pool := RemovePool.loop target available {}
  if pool.wcount ≤ pool.wildcardTargetCount then [] else pool.result

end Labels

/-! ## Slices and goals with labels -/

/-- [SPEC goal.h:296-436] -/
structure LabelledSlice where
  type : SliceType
  parts : List Labels
deriving DecidableEq

namespace LabelledSlice

/-- `Slice(type)` -/
def empty (type : SliceType) : LabelledSlice :=
  ⟨type, List.replicate type.expectedParts []⟩

/-- [SPEC goal.cc:48-52] -/
def getExpectedCopies (slice : LabelledSlice) : Nat :=
  (slice.parts.map Labels.countLabels).sum

/-- How many copies of its parts a slice asks for, or has. -/
def toSlice (slice : LabelledSlice) : Slice :=
  ⟨slice.type, slice.parts.map Labels.countLabels⟩

/-- `++slice[part][label]` -/
def addCopy (slice : LabelledSlice) (part : Nat) (label : MediaLabel) : LabelledSlice :=
  { slice with parts := slice.parts.modify part (Labels.increment label) }

/-- The slice without one of its copies. -/
def removeCopy (slice : LabelledSlice) (part : Nat) (label : MediaLabel) : LabelledSlice :=
  { slice with parts := slice.parts.modify part (Labels.decrement label) }

/-- [SPEC goal.cc:62-97] `assignment` is what the optimizer of assignments made of the
costs. -/
def mergeIn (assignment : LabelledSlice → LabelledSlice → Nat → Nat)
    (slice other : LabelledSlice) : LabelledSlice :=
  { slice with
    parts := slice.parts.mapIdx fun i part =>
      Labels.makeLabelsUnion part (other.parts.getD (assignment slice other i) []) }

/-- All the parts ask for the same [SPEC chunk_copies_calculator.cc:76-84]. -/
def isSkippable (slice : LabelledSlice) : Bool :=
  slice.parts.all fun part => slice.parts.all fun other => part = other

end LabelledSlice

/-- The slices in the order of their types [SPEC goal.h:466-595]. -/
abbrev LabelledGoal := List LabelledSlice

/-- A copy of a part on a server with a label. -/
structure PartCopy where
  type : ChunkPartType
  label : MediaLabel
deriving DecidableEq

namespace LabelledGoal

/-- The slice of a type. -/
def find (goal : LabelledGoal) (type : SliceType) : Option LabelledSlice :=
  FlatMap.find LabelledSlice.type type goal

/-- `++available_[slice_type][part][label]` [SPEC chunk_copies_calculator.h:201-212] -/
def addPart (goal : LabelledGoal) (copy : PartCopy) : LabelledGoal :=
  let add (slice : LabelledSlice) := slice.addCopy copy.type.slicePart copy.label
  FlatMap.upsert LabelledSlice.type copy.type.sliceType
    (add (LabelledSlice.empty copy.type.sliceType)) add goal

/-- The parts that there are. -/
def available (copies : List PartCopy) : LabelledGoal :=
  copies.foldl addPart []

/-- The goal without its labels. -/
def toGoal (goal : LabelledGoal) : Goal :=
  goal.map LabelledSlice.toSlice

/-- One slice comes into a goal [SPEC goal.cc:188-199]. -/
def mergeSlice (assignment : LabelledSlice → LabelledSlice → Nat → Nat) (goal : LabelledGoal)
    (other : LabelledSlice) : LabelledGoal :=
  FlatMap.upsert LabelledSlice.type other.type other (·.mergeIn assignment other) goal

/-- [SPEC goal.cc:185-201] -/
def mergeIn (assignment : LabelledSlice → LabelledSlice → Nat → Nat) (goal other : LabelledGoal) :
    LabelledGoal :=
  other.foldl (mergeSlice assignment) goal

end LabelledGoal

/-! ## The calculator -/

/-- [SPEC chunk_copies_calculator.h:271-281] What else the calculator stores is computed
from the two goals when the target is optimized, and not changed afterwards. -/
structure Calculator where
  available : LabelledGoal
  target : LabelledGoal
deriving DecidableEq

namespace Calculator

/-- [SPEC chunk_copies_calculator.cc:86-154] The parts of a slice of the target change
places where the slice is there in part and its parts ask for different labels.  `assignment`
is what the optimizer of assignments, or its cache, gives. -/
def optimize (useOptimizer : Bool) (assignment : LabelledSlice → LabelledSlice → Nat → Nat)
    (calculator : Calculator) : Calculator :=
  { calculator with
    target := calculator.target.map fun slice =>
      match calculator.available.find slice.type with
      | none => slice
      | some source =>
          if !useOptimizer || slice.parts.length ≤ 1 || slice.isSkippable then slice
          else
            { slice with
              parts := (List.range slice.parts.length).map fun k =>
                slice.parts.getD (assignment slice source k) [] } }

/-- [SPEC chunk_copies_calculator.cc:259-267] -/
def redundancyLevel (calculator : Calculator) : Int :=
  calculator.available.toGoal.evalRedundancyLevel

/-- [SPEC chunk_copies_calculator.cc:156-209, 318-329] -/
def countPartsToMove (calculator : Calculator) (type : SliceType) (part : Nat) : Nat × Nat :=
  match calculator.target.find type, calculator.available.find type with
  | some target, some available =>
      Labels.operationCount (available.parts.getD part []) (target.parts.getD part [])
  | some target, none => ((target.parts.getD part []).countLabels, 0)
  | none, some available => (0, (available.parts.getD part []).countLabels)
  | none, none => (0, 0)

/-- [SPEC chunk_copies_calculator.h:241-243] -/
def countPartsToRecover (calculator : Calculator) : Nat :=
  (calculator.target.map fun slice =>
    ((List.range slice.parts.length).map fun part =>
      (calculator.countPartsToMove slice.type part).1).sum).sum

/-- [SPEC chunk_copies_calculator.cc:510-559] -/
def getRemovePool (calculator : Calculator) (type : SliceType) (part : Nat) : List MediaLabel :=
  match calculator.available.find type, calculator.target.find type with
  | none, _ => []
  | some available, none => (available.parts.getD part []).map (·.1)
  | some available, some target =>
      Labels.removePool (available.parts.getD part []) (target.parts.getD part [])

/-- The slices with parts to spare, and those with just enough
[SPEC chunk_copies_calculator.cc:379-395]. -/
def safeSlices (calculator : Calculator) : Nat :=
  calculator.available.countP (0 < ·.toSlice.evalSliceRedundancyLevel)

def endangeredSlices (calculator : Calculator) : Nat :=
  calculator.available.countP (·.toSlice.evalSliceRedundancyLevel = 0)

/-- [SPEC chunk_copies_calculator.cc:362-428] An answer, or nothing when it depends on
the slice without the part. -/
def removePartBasicTest (calculator : Calculator) (type : SliceType) : Option Bool :=
  if calculator.target = [] then some true
  else
    match calculator.available.find type with
    | none => some false
    | some slice =>
        if calculator.redundancyLevel < 1 then some false
        else if 2 < 2 * calculator.safeSlices + calculator.endangeredSlices then some true
        else if slice.toSlice.evalSliceRedundancyLevel < 0 then some true
        else if calculator.safeSlices ≠ 1 then some false
        else none

/-- Whether the goal asks for a single copy, and there still is one
[SPEC chunk_copies_calculator.cc:346-351]. -/
def keepsSingleCopy (calculator : Calculator) (left : LabelledSlice) : Bool :=
  (calculator.target.find left.type).any fun target =>
    target.getExpectedCopies = 1 && 1 ≤ left.getExpectedCopies

/-- [SPEC chunk_copies_calculator.cc:331-354] -/
def canRemovePart (calculator : Calculator) (type : SliceType) (part : Nat) (label : MediaLabel) :
    Bool :=
  match calculator.removePartBasicTest type with
  | some result => result
  | none =>
      match calculator.available.find type with
      | none => false
      | some slice =>
          let left := slice.removeCopy part label
          calculator.keepsSingleCopy left || 0 < left.toSlice.evalSliceRedundancyLevel

end Calculator

end LeilFS.Chunks
