/-
Module: LeilFS.Locks.Ranges
Purpose: The sorted vector of lock ranges: collision search and insertion.
Trusted boundary: none
-/
import LeilFS.Locks.Range

namespace LeilFS.Locks

open SortedSeq

/-!
`LockRanges` keeps the ranges of one inode in a vector sorted by start.  Both of
its functions look at the same window of that vector: from the last range that
starts before `range.start` (or from the first one of the vector) to the last one
that starts at or before `range.stop`.

[SPEC locks.cc:30-173]
-/

/-- Set of ranges, allows to insert, delete and overwrite existing ranges. -/
structure LockRanges where
  data : List LockRange
deriving Repr, Inhabited, DecidableEq

namespace LockRanges

/-- A table without any range. -/
def empty : LockRanges := { data := [] }

/-- `std::lower_bound` by start, one step back unless at the beginning. -/
def firstTouched (data : List LockRange) (offset : Nat) : Nat :=
  stepBack (partitionPoint (fun other => decide (other.start < offset)) data)

/-- `std::upper_bound` by start. -/
def lastTouched (data : List LockRange) (offset : Nat) : Nat :=
  partitionPoint (fun other => !decide (offset < other.start)) data

/-- The window of the vector that a range can touch. -/
def touched (data : List LockRange) (range : LockRange) : Window LockRange :=
  window data (firstTouched data range.start) (lastTouched data range.stop)

theorem touched_parts (data : List LockRange) (range : LockRange) : (touched data range).front ++
      ((touched data range).middle ++ (touched data range).back) = data := by
  rw [← List.append_assoc]
  exact window_append data _ _

/-- A range of the table that overlaps `range`, where not both are shared and the
owners differ. -/
def collides (range other : LockRange) : Bool :=
  range.overlaps other &&
    ((!(range.type == .shared) || !(other.type == .shared)) &&
      !(other.sameOwners range))

/-- The first range colliding with the given one. -/
def findCollision (locks : LockRanges) (range : LockRange) : Option LockRange :=
  if range.unlocking then none
  else (touched locks.data range).middle.find? (collides range)

/-- Checks if the range is suitable for insertion. -/
def fits (locks : LockRanges) (range : LockRange) : Bool :=
  (locks.findCollision range).isNone

end LockRanges

/-!
The insertion loop runs an iterator from the front to the back of the window and
changes the window and the inserted range on the way.  An `InsertCursor` is the
window cut at the iterator.  The private `insert` of the source puts an element in
front of the iterator and keeps both ends of the window, and the `++it` of the
loop then steps over the new element: together they append to `done`.
-/

/-- State of the insertion loop: what is left of the inserted range, the window
in front of the iterator and the window from the iterator on. -/
structure InsertCursor where
  range : LockRange
  done : List LockRange
  todo : List LockRange
deriving Repr, DecidableEq

namespace InsertCursor

/-- One iteration of the loop of `insert`; `none` when the loop is left, by its
condition or by `break`. -/
def step (c : InsertCursor) : Option InsertCursor :=
  match c.todo with
  | [] => none
  | other :: rest =>
      let range := c.range
      if range.stop ≤ range.start then none
      else if range.sticks other && range.sameOwners other &&
          range.type == other.type then
        -- Ranges are adjacent, so they can be merged.
        some
          { range :=
              { range with
                start := min range.start other.start
                stop := max range.stop other.stop }
            done := c.done ++ [other.markUnlocking]
            todo := rest }
      else if range.stop ≤ other.start then none
      else if !range.overlaps other then
        some { range := range, done := c.done ++ [other], todo := rest }
      else if range.start < other.start then
        some
          { range := { range with start := other.start }
            done := c.done ++ [{ range with stop := other.start }]
            todo := other :: rest }
      else if range.start = other.start then
        if range.stop < other.stop then
          -- The remaining range gets `start := other.stop`, past its own end.
          some
            { range := { range with start := other.stop }
              done := c.done ++ [range.absorb { other with stop := range.stop }]
              todo := { other with start := range.stop } :: rest }
        else
          some
            { range := { range with start := other.stop }
              done := c.done ++ [range.absorb other]
              todo := rest }
      else
        some
          { range := range
            done := c.done ++ [{ other with stop := range.start }]
            todo := { other with start := range.start } :: rest }

/-- The loop of `insert`, for at most `fuel` iterations. -/
def loop (c : InsertCursor) : Nat → InsertCursor
  | 0 => c
  | fuel + 1 =>
      match c.step with
      | none => c
      | some c' => loop c' fuel

/-- Bound on the number of iterations still to come: an element of the window is
met once, or twice when it is split first. -/
def cost (c : InsertCursor) : Nat :=
  if c.range.stop ≤ c.range.start then 0
  else match c.todo with
    | [] => 0
    | other :: rest =>
        2 * rest.length + if c.range.start = other.start then 1 else 2

/-- The part of the loop after the last iteration: what is left of the range goes
in front of the iterator, and everything marked for removal is dropped. -/
def close (c : InsertCursor) : List LockRange :=
  let left := if c.range.start < c.range.stop then [c.range] else []
  (c.done ++ left ++ c.todo).filter (fun range => !range.unlocking)

end InsertCursor

/-- The state in which the loop of `insert` starts. -/
def LockRanges.cursor (locks : LockRanges) (range : LockRange) : InsertCursor :=
  { range := range, done := [], todo := (touched locks.data range).middle }

/-- Inserts a range into the structure.  The caller has checked that it fits. -/
def LockRanges.insert (locks : LockRanges) (range : LockRange) : LockRanges :=
  let c := locks.cursor range
  { data := (touched locks.data range).front ++ (c.loop c.cost).close ++
      (touched locks.data range).back }

end LeilFS.Locks
