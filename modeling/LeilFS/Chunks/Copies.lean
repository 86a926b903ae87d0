/-
Module: LeilFS.Chunks.Copies
Purpose: The types of chunk parts, goals as numbers of copies, and what a set of parts
  is good for: its redundancy and its full copies.
Trusted boundary: none
-/
import Mathlib

namespace LeilFS.Chunks

/-!
A copy of a chunk is a slice: the chunk as a whole, or cut into data parts with
parity parts beside them.  A goal asks for copies of the parts of some slices.  The
calculations below see of a goal how many copies of each part it asks for, or, when it
describes what there is, how many there are; the labels of the servers with the copies
do not matter to them [SPEC goal.h:87-175, chunk_copies_calculator.cc].
-/

/-- The number of a slice type [SPEC goal.h:111-125]. -/
abbrev SliceType := Nat

namespace SliceType

def kStandard : SliceType := 0

def kXor2 : SliceType := 2

def kXor9 : SliceType := 9

def kECFirst : SliceType := 10

def kECLast : SliceType := kECFirst + (31 * 32 - 1)

/-- [SPEC slice_traits.h:32-72] -/
def isStandard (type : SliceType) : Bool :=
  type = kStandard

def isXor (type : SliceType) : Bool :=
  kXor2 ≤ type && type ≤ kXor9

def isEC (type : SliceType) : Bool :=
  kECFirst ≤ type && type ≤ kECLast

/-- [SPEC goal.h:152-156, goal.cc:32-33] -/
def expectedParts (type : SliceType) : Nat :=
  if type < kECFirst then [1, 1, 3, 4, 5, 6, 7, 8, 9, 10].getD type 0
  else 3 + (type - kECFirst) / 32 + (type - kECFirst) % 32

/-- [SPEC slice_traits.h:121-124, 162-164, 230-238] -/
def getNumberOfDataParts (type : SliceType) : Nat :=
  if type.isXor then type - kXor2 + 2
  else if type.isEC then 2 + (type - kECFirst) / 32
  else 1

theorem dataParts_pos (type : SliceType) : 0 < type.getNumberOfDataParts := by
  unfold getNumberOfDataParts
  split
  · exact Nat.succ_pos _
  · split <;> omega

end SliceType

/-- [SPEC chunk_part_type.h:131-226] -/
structure ChunkPartType where
  sliceType : SliceType
  slicePart : Nat
deriving Repr, DecidableEq

/-- A part that holds the whole chunk. -/
def ChunkPartType.standard : ChunkPartType := ⟨SliceType.kStandard, 0⟩

/-- [SPEC slice_traits.h:216-224] -/
def ChunkPartType.isParityPart (type : ChunkPartType) : Bool :=
  if type.sliceType.isXor then type.slicePart = 0
  else if type.sliceType.isEC then type.sliceType.getNumberOfDataParts ≤ type.slicePart
  else false

/-- The numbers of copies of the parts of a slice. -/
structure Slice where
  type : SliceType
  copies : List Nat
deriving Repr, DecidableEq

/-- [SPEC goal.h:466-603] -/
abbrev Goal := List Slice

namespace Slice

/-- [SPEC chunk_copies_calculator.cc:278-294] Negative without enough parts to
read the chunk. -/
def evalSliceRedundancyLevel (slice : Slice) : Int :=
  if slice.type.isStandard then slice.copies.sum - 1
  else if slice.type.isXor || slice.type.isEC then
    slice.copies.countP (0 < ·) - slice.type.getNumberOfDataParts
  else -1

/-- `std::numeric_limits<int>::max()` -/
def intMax : Nat := 2 ^ 31 - 1

/-- The lowest and the second lowest number of copies. -/
def lowestCopies (copies : List Nat) : Nat × Nat :=
  copies.foldl (fun (l1, l2) count => if count < l1 then (count, l1) else (l1, min l2 count))
    (intMax, intMax)

/-- The full copies of a chunk in one slice [SPEC chunk_copies_calculator.cc:561-598]. -/
def fullCopies (slice : Slice) : Nat :=
  if slice.type.isStandard then slice.copies.sum
  else if slice.type.isXor then (lowestCopies slice.copies).2
  else if slice.type.isEC then
    (slice.copies.insertionSort (· ≥ ·)).getD (slice.type.getNumberOfDataParts - 1) 0
  else 0

end Slice

namespace Goal

/-- One more copy of a part [SPEC chunk_copies_calculator.h:201-212]. -/
def addPart : Goal → ChunkPartType → Goal
  | [], part =>
      [⟨part.sliceType,
        (List.replicate part.sliceType.expectedParts 0).modify part.slicePart (· + 1)⟩]
  | slice :: goal, part =>
      if slice.type = part.sliceType then
        { slice with copies := slice.copies.modify part.slicePart (· + 1) } :: goal
      else slice :: addPart goal part

/-- The parts that there are. -/
def available (parts : List ChunkPartType) : Goal :=
  parts.foldl addPart []

/-- [SPEC chunk_copies_calculator.cc:259-276] -/
def evalRedundancyLevel (goal : Goal) : Int :=
  (goal.map fun slice => max (slice.evalSliceRedundancyLevel + 1) 0).sum - 1

/-- [SPEC chunk_copies_calculator.cc:561-601] -/
def getFullCopiesCount (goal : Goal) : Nat :=
  (goal.map Slice.fullCopies).sum

/-- [SPEC chunk_copies_calculator.cc:296-307] -/
def isSafeEnoughToWrite (target available : Goal) (minRedundantParts : Int) : Bool :=
  min target.evalRedundancyLevel minRedundantParts ≤ available.evalRedundancyLevel

end Goal

/-- [SPEC chunks_availability_state.h] -/
inductive AvailabilityState where
  | safe | endangered | lost
deriving Repr, DecidableEq

/-- [SPEC chunk_copies_calculator.h:219-228] -/
def AvailabilityState.getState (target available : Goal) : AvailabilityState :=
  if target = [] ∨ 0 < available.evalRedundancyLevel then .safe
  else if available.evalRedundancyLevel = 0 then .endangered
  else .lost

end LeilFS.Chunks
