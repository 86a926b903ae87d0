/-
Module: LeilFS.Locks.Range
Purpose: Owners and typed half-open lock ranges of `locks.h`.
Trusted boundary: none
-/
import LeilFS.Lib.SortedSeq

namespace LeilFS.Locks

/-!
A `LockRange` is a half-open interval `[start, stop)` of file offsets with a type
and a vector of owners.  Offsets are only compared by the code below, never added
to, so they are natural numbers here; the operations that use the 64-bit bounds
take 64-bit arguments.  The source calls the upper bound `end`.

[SPEC locks.h:33-152]
-/

/-- A lock owner: the owner field provided by FUSE, the client's session, and
two ids that are only used to answer and to interrupt a waiting request. -/
structure Owner where
  owner : Nat
  sessionid : Nat
  reqid : Nat
  msgid : Nat
deriving Repr, Inhabited, DecidableEq

namespace Owner

/-- `operator==` ignores `reqid` and `msgid`. -/
def same (a b : Owner) : Bool :=
  a.owner == b.owner && a.sessionid == b.sessionid

/-- `operator<` ignores `reqid` and `msgid`. -/
def lt (a b : Owner) : Bool :=
  decide (a.owner < b.owner) ||
    (a.owner == b.owner && decide (a.sessionid < b.sessionid))

end Owner

/-- What identifies an owner: the FUSE owner, then the session. -/
abbrev OwnerKey := Nat ×ₗ Nat

/-- The identity of an owner, in the order `operator<` uses. -/
def Owner.key (o : Owner) : OwnerKey := toLex (o.owner, o.sessionid)

theorem Owner.same_iff (a b : Owner) : a.same b = true ↔ a.key = b.key := by
  simp [Owner.same, Owner.key]

theorem Owner.lt_iff (a b : Owner) : a.lt b = true ↔ a.key < b.key := by
  simp [Owner.lt, Owner.key, Prod.Lex.lt_iff]

/-- Possible types of a lock range. -/
inductive LockType where
  | invalid
  | unlock
  | shared
  | exclusive
deriving Repr, Inhabited, DecidableEq

/-- Representation of the half-open interval `[start, stop)` with its type and
owners. -/
structure LockRange where
  type : LockType
  start : Nat
  stop : Nat
  owners : List Owner
deriving Repr, Inhabited, DecidableEq

namespace LockRange

/-- The constructor used for every request: one owner. -/
def single (type : LockType) (start stop : Nat) (first : Owner) : LockRange :=
  { type := type, start := start, stop := stop, owners := [first] }

/-- Checks if the range overlaps with the other one. -/
def overlaps (range other : LockRange) : Bool :=
  decide (range.start < other.stop) && decide (other.start < range.stop)

/-- Checks if one range's end is equal to the other one's start. -/
def sticks (range other : LockRange) : Bool :=
  range.start == other.stop || other.start == range.stop

/-- The range is destined to be removed. -/
def unlocking (range : LockRange) : Bool :=
  range.type == .unlock || range.owners.isEmpty

/-- Marks the range to be removed in the future. -/
def markUnlocking (range : LockRange) : LockRange :=
  { range with type := .unlock }

/-- Vector comparison of the owners of two ranges. -/
def sameOwners (range other : LockRange) : Bool :=
  range.owners.isEqv other.owners Owner.same

/-- Removes the candidate from the owners, if it is one of them. -/
def eraseOwner (range : LockRange) (candidate : Owner) : LockRange :=
  { range with
    owners := SortedSeq.eraseFound Owner.lt Owner.same candidate range.owners }

/-- Adds a set of owners to the range. -/
def addOwners (range : LockRange) (other : List Owner) : LockRange :=
  { range with
    owners := SortedSeq.unique Owner.same
      (SortedSeq.merge Owner.lt range.owners other) }

/-- What `insert` does to the piece of an existing range that an inserted range
covers completely: with the same owners the piece changes its type, an unlocking
range takes its owner out, and otherwise both are shared and the owners join. -/
def absorb (range piece : LockRange) : LockRange :=
  if range.sameOwners piece then { piece with type := range.type }
  else if range.unlocking then
    match range.owners with
    | candidate :: _ => piece.eraseOwner candidate
    | [] => piece
  else piece.addOwners range.owners

/-- `operator<` of ranges, the order of the waiting queue. -/
def before (range other : LockRange) : Bool :=
  decide (range.start < other.start) ||
    (range.start == other.start && decide (range.stop < other.stop))

/-- The identities of the owners, in vector order. -/
def keys (range : LockRange) : List OwnerKey := range.owners.map Owner.key

/-!
The owner vector is a set of keys kept in increasing order, and the two owner
operations are removal from and union with that set.
-/

theorem sameOwners_iff (range other : LockRange) :
    range.sameOwners other = true ↔ range.keys = other.keys := by
  unfold sameOwners keys
  generalize range.owners = left
  generalize other.owners = right
  induction left generalizing right with
  | nil => cases right <;> simp [List.isEqv]
  | cons a left ih =>
    cases right with
    | nil => simp [List.isEqv]
    | cons b right => simp [List.isEqv, Owner.same_iff, ih]

theorem unlocking_iff (range : LockRange) :
    range.unlocking = true ↔ range.type = .unlock ∨ range.keys = [] := by
  simp [unlocking, keys]

theorem unlocking_eq_false_iff (range : LockRange) :
    range.unlocking = false ↔ range.type ≠ .unlock ∧ range.keys ≠ [] := by
  rw [Bool.eq_false_iff, ne_eq, unlocking_iff, not_or]

theorem overlaps_iff (range other : LockRange) :
    range.overlaps other = true ↔ range.start < other.stop ∧ other.start < range.stop := by
  simp [overlaps]

variable {range : LockRange}

theorem keys_eraseOwner (cand : Owner) (sorted : range.keys.Pairwise (· < ·)) :
    (range.eraseOwner cand).keys = range.keys.filter (fun k => decide (k ≠ cand.key)) :=
  SortedSeq.map_key_eraseFound Owner.lt_iff Owner.same_iff cand sorted

variable {other : List Owner} (sorted : range.keys.Pairwise (· < ·))
  (otherSorted : (other.map Owner.key).Pairwise (· < ·))

include sorted otherSorted

theorem mem_keys_addOwners (k : OwnerKey) :
    k ∈ (range.addOwners other).keys ↔ k ∈ range.keys ∨ k ∈ other.map Owner.key :=
  SortedSeq.mem_key_unique_merge Owner.lt_iff Owner.same_iff sorted otherSorted k

theorem pairwise_keys_addOwners : (range.addOwners other).keys.Pairwise (· < ·) :=
  SortedSeq.pairwise_key_unique_merge Owner.lt_iff Owner.same_iff sorted otherSorted

end LockRange

end LeilFS.Locks
