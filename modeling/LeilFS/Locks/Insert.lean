/-
Module: LeilFS.Locks.Insert
Purpose: Insertion into a table of lock ranges refines a point update of the map
  from offsets and owners to lock modes.
Trusted boundary: none
-/
import LeilFS.Locks.Ranges

namespace LeilFS.Locks

open LockRange List SortedSeq

/-!
The purpose of a lock table is to say which owner holds which offset in which
mode.  `HeldMap` is that map, and `assign` is the only way a request changes it.
The rest of this module shows that the vector of ranges represents such a map and
that `insert`, with all its splitting, merging and retyping, is `assign`.
-/

/-- The mode in which an owner holds an offset. -/
inductive Mode where
  | none
  | shared
  | exclusive
deriving Repr, Inhabited, DecidableEq

/-- The mode that a range of this type grants. -/
def LockType.mode : LockType → Mode
  | .shared => .shared
  | .exclusive => .exclusive
  | .unlock => .none
  | .invalid => .none

/-- Offset, owner, mode. -/
abbrev HeldMap := Nat → OwnerKey → Mode

/-- One owner gets one mode on the offsets `[start, stop)`. -/
def HeldMap.assign (held : HeldMap) (start stop : Nat) (owner : OwnerKey)
    (mode : Mode) : HeldMap :=
  fun x k => if start ≤ x ∧ x < stop ∧ k = owner then mode else held x k

/-- The range gives the owner its type at the offset. -/
def LockRange.Gives (range : LockRange) (x : Nat) (k : OwnerKey)
    (t : LockType) : Prop :=
  range.start ≤ x ∧ x < range.stop ∧ k ∈ range.keys ∧ range.type = t

/-- Some range of the list gives the owner the type at the offset. -/
def Gives (data : List LockRange) (x : Nat) (k : OwnerKey) (t : LockType) : Prop :=
  ∃ range ∈ data, range.Gives x k t

/-- Executable view: the range has the offset, and the owner is one of its own. -/
def LockRange.covers (range : LockRange) (x : Nat) (k : OwnerKey) : Bool :=
  decide (range.start ≤ x) && decide (x < range.stop) && range.keys.contains k

/-- Executable view of the map, by the first range that covers the offset for the
owner. -/
def LockRanges.heldMode (locks : LockRanges) : HeldMap := fun x k =>
  match locks.data.find? (fun range => range.covers x k) with
  | some range => range.type.mode
  | none => .none

/-- What every range of a table looks like. -/
structure LockRange.Sound (range : LockRange) : Prop where
  nonempty : range.start < range.stop
  locking : range.type = .shared ∨ range.type = .exclusive
  owned : range.owners ≠ []
  sorted : range.keys.Pairwise (· < ·)
  exclusiveOwner : range.type = .exclusive → range.owners.length = 1

/-- The first range ends before the second one starts, or where it starts. -/
def LockRange.Precedes (range other : LockRange) : Prop :=
  range.stop ≤ other.start

/-- Sorted by start, pairwise disjoint, every range sound. -/
structure LockRanges.Sound (locks : LockRanges) : Prop where
  ranges : ∀ range ∈ locks.data, range.Sound
  layout : locks.data.Pairwise LockRange.Precedes

/-- What a caller may insert: one owner, a non-empty interval, and a type that
locks or unlocks. -/
structure LockRange.Request (range : LockRange) (k : OwnerKey) : Prop where
  nonempty : range.start < range.stop
  owner : range.keys = [k]
  typed : range.type ≠ .invalid

/-- Two overlapping ranges can stand together: one takes away, both have the
same owners, or both are shared. -/
def LockRange.Compatible (range other : LockRange) : Prop :=
  range.type = .unlock ∨ range.keys = other.keys ∨
    (range.type = .shared ∧ other.type = .shared)

/-!
Covering one existing piece completely.  Whatever `absorb` does to the vector of
owners, at every offset of the piece it replaces what the inserting owner had and
nothing else.
-/

theorem LockRange.Sound.not_unlocking {range : LockRange} (h : range.Sound) :
    range.unlocking = false := by
  have owned : range.keys ≠ [] := by simpa [LockRange.keys] using h.owned
  rw [unlocking_eq_false_iff]
  refine ⟨?_, owned⟩
  rcases h.locking with type | type <;> simp [type]

@[simp] theorem absorb_start (range piece : LockRange) :
    (range.absorb piece).start = piece.start := by
  unfold absorb
  split_ifs <;> (try split) <;> rfl

@[simp] theorem absorb_stop (range piece : LockRange) : (range.absorb piece).stop = piece.stop := by
  unfold absorb
  split_ifs <;> (try split) <;> rfl

variable {k : OwnerKey} {range piece : LockRange} {data : List LockRange}
  {front back : List LockRange}

/-- The three outcomes of `absorb` for a single inserting owner. -/
theorem absorb_cases (owner : range.keys = [k]) (h : piece.Sound)
    (compatible : range.Compatible piece) :
    (piece.keys = [k] ∧ range.absorb piece = { piece with type := range.type }) ∨
    (piece.keys ≠ [k] ∧ range.type = .unlock ∧ (range.absorb piece).type = piece.type ∧
      (range.absorb piece).keys = piece.keys.filter (fun o => decide (o ≠ k))) ∨
    (piece.keys ≠ [k] ∧ range.type = .shared ∧ piece.type = .shared ∧
      (range.absorb piece).type = .shared ∧ (range.absorb piece).keys.Pairwise (· < ·) ∧
      ∀ o, o ∈ (range.absorb piece).keys ↔ o ∈ piece.keys ∨ o = k) := by
  obtain ⟨candidate, owners, key⟩ : ∃ o, range.owners = [o] ∧ o.key = k := by
    rw [LockRange.keys, map_eq_singleton_iff] at owner
    exact owner
  by_cases same : range.sameOwners piece
  · left
    refine ⟨?_, by simp [absorb, same]⟩
    rw [← owner, (sameOwners_iff _ _).mp same]
  have ne : piece.keys ≠ [k] := fun equal =>
    same ((sameOwners_iff _ _).mpr (owner.trans equal.symm))
  right
  by_cases unlock : range.type = .unlock
  · left
    have absorbed : range.absorb piece = piece.eraseOwner candidate := by
      simp [absorb, same, unlocking, unlock, owners]
    refine ⟨ne, unlock, by rw [absorbed]; rfl, ?_⟩
    rw [absorbed, keys_eraseOwner candidate h.sorted, key]
  right
  have absorbed : range.absorb piece = piece.addOwners range.owners := by
    simp [absorb, same, unlocking, unlock, owners]
  have shared : range.type = .shared ∧ piece.type = .shared := by
    rcases compatible with unlocks | equal | shared
    · exact absurd unlocks unlock
    · exact absurd (owner ▸ equal.symm) ne
    · exact shared
  have sortedOwner : (range.owners.map Owner.key).Pairwise (· < ·) := by
    simp [owners]
  refine ⟨ne, shared.1, shared.2, ?_, ?_, ?_⟩
  · rw [absorbed]
    exact shared.2
  · rw [absorbed]
    exact pairwise_keys_addOwners h.sorted sortedOwner
  · intro o
    rw [absorbed, mem_keys_addOwners h.sorted sortedOwner]
    simp [owners, key]

/-- A piece that is still live after `absorb` is a sound range. -/
theorem LockRange.Sound.absorb (owner : range.keys = [k]) (typed : range.type ≠ .invalid)
    (h : piece.Sound) (compatible : range.Compatible piece)
    (live : (range.absorb piece).unlocking = false) : (range.absorb piece).Sound := by
  have kept := (unlocking_eq_false_iff _).mp live
  have ne : (range.absorb piece).start < (range.absorb piece).stop := by
    simpa using h.nonempty
  have owned : (range.absorb piece).owners ≠ [] := by
    simpa [LockRange.keys] using kept.2
  rcases absorb_cases owner h compatible with
    ⟨keys, absorbed⟩ | ⟨-, unlock, type, keys⟩ | ⟨-, -, -, type, sorted, -⟩
  · have length : (range.absorb piece).owners.length = 1 := by
      have : piece.keys.length = 1 := by simp [keys]
      simpa [absorbed, LockRange.keys] using this
    refine ⟨ne, ?_, owned, ?_, fun _ => length⟩
    · cases type : range.type <;> simp_all
    · simpa [absorbed, LockRange.keys] using h.sorted
  · refine ⟨ne, type ▸ h.locking, owned, ?_, ?_⟩
    · rw [keys]
      exact h.sorted.filter _
    · intro exclusive
      have le : (range.absorb piece).keys.length ≤ piece.keys.length := by
        rw [keys]
        exact length_filter_le _ _
      have one : piece.keys.length = 1 := by
        simpa [LockRange.keys] using h.exclusiveOwner (type ▸ exclusive)
      have pos := length_pos_iff.mpr kept.2
      have exact : (range.absorb piece).keys.length = 1 := by omega
      simpa [LockRange.keys] using exact
  · refine ⟨ne, .inl type, owned, sorted, ?_⟩
    intro exclusive
    rw [type] at exclusive
    cases exclusive

/-- What an absorbed piece gives: the inserted type to the inserting owner, and
what it gave before to everybody else. -/
theorem absorb_gives (owner : range.keys = [k]) (h : piece.Sound)
    (compatible : range.Compatible piece) (o : OwnerKey) (t : LockType) :
    ((range.absorb piece).unlocking = false ∧ o ∈ (range.absorb piece).keys ∧
        (range.absorb piece).type = t) ↔
      if o = k then range.type = t ∧ t ≠ .unlock
      else o ∈ piece.keys ∧ piece.type = t := by
  have pieceType : piece.type ≠ .unlock := by
    rcases h.locking with type | type <;> simp [type]
  rw [unlocking_eq_false_iff]
  rcases absorb_cases owner h compatible with
    ⟨keys, absorbed⟩ | ⟨-, unlock, type, keys⟩ | ⟨-, rangeType, shared, type, -, keys⟩
  · have absorbedKeys : (range.absorb piece).keys = [k] := by
      rw [absorbed]
      exact keys
    have absorbedType : (range.absorb piece).type = range.type := by rw [absorbed]
    rw [absorbedType]
    split
    · aesop
    · aesop
  · rw [type, keys]
    split
    · aesop
    next ne =>
      have mem : o ∈ piece.keys.filter (fun o => decide (o ≠ k)) ↔ o ∈ piece.keys := by
        simp [ne]
      rw [mem]
      constructor
      · exact fun given => given.2
      · intro given
        exact ⟨⟨pieceType, ne_nil_of_mem (mem.mpr given.1)⟩, given⟩
  · rw [rangeType]
    have nonempty : k ∈ (range.absorb piece).keys := (keys k).mpr (.inr rfl)
    rw [keys o]
    split
    · aesop
    · aesop

/-!
The six ways an iteration goes on.  `Moves` is the inversion of
`InsertCursor.step`; every fact about the loop is proved from it.
-/

namespace InsertCursor

/-- One iteration of the insertion loop, by branch. -/
inductive Moves : InsertCursor → InsertCursor → Prop where
  | merge {range other : LockRange} {done rest : List LockRange}
      (left : range.start < range.stop)
      (sticks : range.sticks other = true)
      (owners : range.keys = other.keys) (type : range.type = other.type) :
      Moves ⟨range, done, other :: rest⟩
        ⟨{ range with
            start := min range.start other.start
            stop := max range.stop other.stop },
          done ++ [other.markUnlocking], rest⟩
  | skip {range other : LockRange} {done rest : List LockRange}
      (left : range.start < range.stop)
      (reaches : other.start < range.stop)
      (apart : other.stop ≤ range.start) :
      Moves ⟨range, done, other :: rest⟩ ⟨range, done ++ [other], rest⟩
  | fillGap {range other : LockRange} {done rest : List LockRange}
      (left : range.start < range.stop)
      (overlap : range.overlaps other = true)
      (before : range.start < other.start) :
      Moves ⟨range, done, other :: rest⟩
        ⟨{ range with start := other.start },
          done ++ [{ range with stop := other.start }], other :: rest⟩
  | coverFront {range other : LockRange} {done rest : List LockRange}
      (left : range.start < range.stop)
      (overlap : range.overlaps other = true)
      (aligned : range.start = other.start) (inside : range.stop < other.stop) :
      Moves ⟨range, done, other :: rest⟩
        ⟨{ range with start := other.stop },
          done ++ [range.absorb { other with stop := range.stop }],
          { other with start := range.stop } :: rest⟩
  | coverWhole {range other : LockRange} {done rest : List LockRange}
      (left : range.start < range.stop)
      (overlap : range.overlaps other = true)
      (aligned : range.start = other.start) (beyond : other.stop ≤ range.stop) :
      Moves ⟨range, done, other :: rest⟩
        ⟨{ range with start := other.stop }, done ++ [range.absorb other], rest⟩
  | cutFront {range other : LockRange} {done rest : List LockRange}
      (left : range.start < range.stop)
      (overlap : range.overlaps other = true)
      (after : other.start < range.start) :
      Moves ⟨range, done, other :: rest⟩
        ⟨range, done ++ [{ other with stop := range.start }],
          { other with start := range.start } :: rest⟩

theorem step_moves {c c' : InsertCursor} (stepped : c.step = some c') : c.Moves c' := by
  obtain ⟨range, done, todo⟩ := c
  cases todo with
  | nil => simp [step] at stepped
  | cons other rest =>
    simp only [step] at stepped
    split_ifs at stepped with finished adjacent past apart before aligned inside <;> cases stepped
    all_goals have left : range.start < range.stop := Nat.lt_of_not_le finished
    · obtain ⟨⟨sticks, owners⟩, type⟩ : (range.sticks other = true ∧
          range.sameOwners other = true) ∧ range.type = other.type := by
        simpa using adjacent
      exact .merge left sticks ((sameOwners_iff _ _).mp owners) type
    · have reaches : other.start < range.stop := Nat.lt_of_not_le past
      refine .skip left reaches ?_
      simpa [overlaps, reaches] using apart
    all_goals have overlap : range.overlaps other = true := by simpa using apart
    · exact .fillGap left overlap before
    · exact .coverFront left overlap aligned inside
    · exact .coverWhole left overlap aligned (Nat.le_of_not_lt inside)
    · exact .cutFront left overlap (by omega)

variable {c : InsertCursor}

/-- When the loop is left, nothing of the window overlaps what is left of the
range. -/
theorem step_eq_none (stopped : c.step = none) : c.range.stop ≤ c.range.start ∨ c.todo = [] ∨
      ∃ other rest, c.todo = other :: rest ∧ c.range.stop ≤ other.start := by
  obtain ⟨range, done, todo⟩ := c
  cases todo with
  | nil => exact .inr (.inl rfl)
  | cons other rest =>
    simp only [step] at stopped
    by_cases finished : range.stop ≤ range.start
    · exact .inl finished
    by_cases past : range.stop ≤ other.start
    · exact .inr (.inr ⟨other, rest, rfl, past⟩)
    · split_ifs at stopped

theorem Moves.cost_lt {c c' : InsertCursor} (moves : c.Moves c') : c'.cost < c.cost := by
  -- Whatever comes next in the window costs at most two iterations, and the head of the
  -- window at least one.
  have bound (range : LockRange) (done rest : List LockRange) :
      cost ⟨range, done, rest⟩ ≤ 2 * rest.length := by
    unfold cost
    split
    · omega
    · cases rest with
      | nil => simp
      | cons other rest =>
        simp only [length_cons]
        split <;> omega
  have head {range other : LockRange} {done rest : List LockRange}
      (left : range.start < range.stop) :
      2 * rest.length < cost ⟨range, done, other :: rest⟩ := by
    simp only [cost, Nat.not_le.mpr left, if_false]
    split <;> omega
  cases moves with
  | merge left => exact (bound _ _ _).trans_lt (head left)
  | skip left => exact (bound _ _ _).trans_lt (head left)
  | fillGap left overlap before =>
    simp only [cost]
    split_ifs <;> omega
  | coverFront left overlap aligned inside =>
    simp only [cost]
    split_ifs <;> omega
  | coverWhole left => exact (bound _ _ _).trans_lt (head left)
  | cutFront left overlap after =>
    simp only [cost]
    split_ifs <;> omega

/-- The loop runs to its end: the fuel given by `cost` is never used up. -/
theorem loop_stopped {fuel : Nat} (le : c.cost ≤ fuel) : (c.loop fuel).step = none := by
  induction fuel generalizing c with
  | zero =>
    cases stepped : c.step with
    | none => exact stepped
    | some c' =>
      have := (step_moves stepped).cost_lt
      omega
  | succ fuel ih =>
    cases stepped : c.step with
    | none => simp [loop, stepped]
    | some c' =>
      have := (step_moves stepped).cost_lt
      simp only [loop, stepped]
      exact ih (by omega)

/-- What every iteration preserves holds after the loop. -/
theorem loop_preserves {P : InsertCursor → Prop} (preserved : ∀ c c', P c → c.Moves c' → P c')
    (fuel : Nat) (initially : P c) : P (c.loop fuel) := by
  induction fuel generalizing c with
  | zero => exact initially
  | succ fuel ih =>
    cases stepped : c.step with
    | none => simpa [loop, stepped] using initially
    | some c' =>
      simp only [loop, stepped]
      exact ih (preserved c c' initially (step_moves stepped))

end InsertCursor

/-!
The invariant of the loop.  Everything in front of the iterator is finished and
ends before what is left of the range; everything from the iterator on is still as
it was, and compatible with the range where they overlap.
-/

/-- The ranges that will not be dropped at the end of an insertion. -/
def live (data : List LockRange) : List LockRange :=
  data.filter (fun range => !range.unlocking)

@[simp] theorem live_append (left right : List LockRange) :
    live (left ++ right) = live left ++ live right :=
  filter_append ..

theorem live_of_sound (sound : ∀ range ∈ data, range.Sound) : live data = data :=
  filter_eq_self.mpr fun range mem => by
    simp [(sound range mem).not_unlocking]

theorem live_singleton (range : LockRange) :
    live [range] = if range.unlocking then [] else [range] := by
  cases unlocking : range.unlocking <;> simp [live, unlocking]

/-- The table as the loop sees it: finished ranges `behind`, then the rest of the
window `todo`, then the ranges `back` after the window. -/
structure LoopInvariant (behind todo back : List LockRange) (k : OwnerKey)
    (range : LockRange) : Prop where
  owner : range.keys = [k]
  typed : range.type ≠ .invalid
  sound : ∀ r ∈ behind ++ (todo ++ back), r.Sound
  layout : (behind ++ (todo ++ back)).Pairwise LockRange.Precedes
  finished : ∀ r ∈ behind, r.stop ≤ range.start
  bounded : ∀ r ∈ back, range.stop ≤ r.start
  compatible : ∀ r ∈ todo, range.overlaps r = true → range.Compatible r

/-- What the table will give once the rest of the range is in. -/
def Overlay (range : LockRange) (k : OwnerKey) (data : List LockRange)
    (x : Nat) (o : OwnerKey) (t : LockType) : Prop :=
  if range.start ≤ x ∧ x < range.stop ∧ o = k then range.type = t ∧ t ≠ .unlock
  else Gives data x o t

/-- The loop goes on with another table and the rest of the range, and the table will
give the same. -/
def Continues (back : List LockRange) (k : OwnerKey) (behind todo : List LockRange)
    (range : LockRange) (behind' todo' : List LockRange) (range' : LockRange) : Prop :=
  LoopInvariant behind' todo' back k range' ∧ ∀ x o t,
    Overlay range' k (behind' ++ (todo' ++ back)) x o t ↔
      Overlay range k (behind ++ (todo ++ back)) x o t

theorem Continues.trans {back behind todo behind' todo' behind'' todo'' : List LockRange}
    {range range' range'' : LockRange}
    (first : Continues back k behind todo range behind' todo' range')
    (second : Continues back k behind' todo' range' behind'' todo'' range'') :
    Continues back k behind todo range behind'' todo'' range'' :=
  ⟨second.1, fun x o t => (second.2 x o t).trans (first.2 x o t)⟩

theorem gives_append (left right : List LockRange) (x : Nat) (o : OwnerKey) (t : LockType) :
    Gives (left ++ right) x o t ↔ Gives left x o t ∨ Gives right x o t := by
  simp only [Gives, mem_append, or_and_right, exists_or]

theorem gives_cons (range : LockRange) (rest : List LockRange) (x : Nat)
    (o : OwnerKey) (t : LockType) :
    Gives (range :: rest) x o t ↔ range.Gives x o t ∨ Gives rest x o t := by
  simp [Gives]

/-- Nothing is given at or after the end of all ranges. -/
theorem not_gives_after {bound x : Nat} (ends : ∀ r ∈ data, r.stop ≤ bound) (after : bound ≤ x)
    (o : OwnerKey) (t : LockType) : ¬ Gives data x o t := by
  rintro ⟨r, mem, -, inside, -⟩
  have := ends r mem
  omega

/-- Nothing is given before the start of all ranges. -/
theorem not_gives_before {bound x : Nat} (starts : ∀ r ∈ data, bound ≤ r.start) (before : x < bound)
    (o : OwnerKey) (t : LockType) : ¬ Gives data x o t := by
  rintro ⟨r, mem, inside, -⟩
  have := starts r mem
  omega

theorem mem_live_singleton (mem : range ∈ live [piece]) :
    range = piece ∧ piece.unlocking = false := by
  obtain ⟨mem, notUnlocking⟩ := mem_filter.mp mem
  rw [mem_singleton] at mem
  subst mem
  exact ⟨rfl, by simpa using notUnlocking⟩

theorem pairwise_live_singleton (piece : LockRange) : (live [piece]).Pairwise LockRange.Precedes :=
  List.Pairwise.filter _ (pairwise_singleton _ _)

/-- Sound pieces that stand free between two parts of a table. -/
theorem splice {behind pieces tail : List LockRange} (sound : ∀ r ∈ behind ++ tail, r.Sound)
    (layout : (behind ++ tail).Pairwise LockRange.Precedes)
    (apart : pieces.Pairwise LockRange.Precedes)
    (free : ∀ r ∈ pieces, r.Sound ∧ (∀ s ∈ behind, s.stop ≤ r.start) ∧
      ∀ s ∈ tail, r.stop ≤ s.start) : (∀ r ∈ behind ++ pieces ++ tail, r.Sound) ∧
      (behind ++ pieces ++ tail).Pairwise LockRange.Precedes := by
  rw [forall_mem_append] at sound
  rw [pairwise_append] at layout
  constructor
  · rw [forall_mem_append, forall_mem_append]
    exact ⟨⟨sound.1, fun r mem => (free r mem).1⟩, sound.2⟩
  · rw [append_assoc, pairwise_append, pairwise_append]
    refine ⟨layout.1, ⟨apart, layout.2.1, fun r mem => (free r mem).2.2⟩, ?_⟩
    intro r mem s later
    rcases mem_append.mp later with piece | later
    · exact (free s piece).2.1 r mem
    · exact layout.2.2 r mem s later

/-- A piece of the inserted range that stands free between `behind` and `tail`. -/
structure Placement (behind tail : List LockRange) (k : OwnerKey)
    (piece : LockRange) : Prop where
  owner : piece.keys = [k]
  typed : piece.type ≠ .invalid
  nonempty : piece.start < piece.stop
  finished : ∀ r ∈ behind, r.stop ≤ piece.start
  bounded : ∀ r ∈ tail, piece.stop ≤ r.start

namespace Placement

variable {behind tail : List LockRange} {k : OwnerKey} {piece : LockRange}

theorem sound (h : Placement behind tail k piece)
    (locks : piece.unlocking = false) : piece.Sound := by
  have owner := h.owner
  have typed := h.typed
  rw [unlocking_eq_false_iff] at locks
  have length : piece.owners.length = 1 := by
    have := congrArg length owner
    simpa [LockRange.keys] using this
  refine ⟨h.nonempty, ?_, ?_, ?_, fun _ => length⟩
  · cases type : piece.type <;> simp_all
  · exact ne_nil_of_length_pos (by omega)
  · rw [owner]
    exact pairwise_singleton _ _

/-- A free piece goes into the table as it is, or stays out when it unlocks. -/
theorem place (h : Placement behind tail k piece) (allSound : ∀ r ∈ behind ++ tail, r.Sound)
    (layout : (behind ++ tail).Pairwise LockRange.Precedes) :
    (∀ r ∈ (behind ++ live [piece]) ++ tail, r.Sound) ∧
      ((behind ++ live [piece]) ++ tail).Pairwise LockRange.Precedes ∧
      ∀ x o t, Gives ((behind ++ live [piece]) ++ tail) x o t ↔
        Overlay piece k (behind ++ tail) x o t := by
  have placed := splice allSound layout (pairwise_live_singleton piece) fun r mem => by
    obtain ⟨rfl, locks⟩ := mem_live_singleton mem
    exact ⟨h.sound locks, h.finished, h.bounded⟩
  refine ⟨placed.1, placed.2, ?_⟩
  intro x o t
  have own : Gives (live [piece]) x o t ↔
      piece.start ≤ x ∧ x < piece.stop ∧ o = k ∧ piece.type = t ∧ t ≠ .unlock := by
    constructor
    · rintro ⟨r, mem, low, high, owner, type⟩
      obtain ⟨rfl, locks⟩ := mem_live_singleton mem
      rw [h.owner, mem_singleton] at owner
      rw [unlocking_eq_false_iff] at locks
      exact ⟨low, high, owner, type, type ▸ locks.1⟩
    · rintro ⟨low, high, rfl, type, locks⟩
      have notUnlocking : piece.unlocking = false := by
        simpa [unlocking_eq_false_iff, h.owner, type] using locks
      refine ⟨piece, by simp [live_singleton, notUnlocking], low, high, ?_, type⟩
      simp [h.owner]
  have quietBehind : Gives behind x o t → x < piece.start := fun given =>
    Nat.lt_of_not_le fun reached => not_gives_after h.finished reached o t given
  have quietTail : Gives tail x o t → piece.stop ≤ x := fun given =>
    Nat.le_of_not_lt fun reached => not_gives_before h.bounded reached o t given
  simp only [Overlay, gives_append]
  split_ifs <;> grind only

end Placement

namespace LoopInvariant

variable {behind rest back : List LockRange} {k : OwnerKey}
variable {range other : LockRange}

section

variable (inv : LoopInvariant behind (other :: rest) back k range)
include inv

/-- Where the head of the window stands between its neighbours. -/
theorem head : other.Sound ∧ (∀ r ∈ behind, r.stop ≤ other.start) ∧
      (∀ r ∈ rest ++ back, other.stop ≤ r.start) ∧
      (behind ++ (rest ++ back)).Pairwise LockRange.Precedes := by
  have layout := inv.layout
  rw [pairwise_append, cons_append, pairwise_cons] at layout
  obtain ⟨behindLayout, ⟨headFirst, restLayout⟩, across⟩ := layout
  refine ⟨inv.sound other (by simp), ?_, headFirst, ?_⟩
  · intro r mem
    exact across r mem other (by simp)
  · rw [pairwise_append]
    exact ⟨behindLayout, restLayout, fun r mem s later => across r mem s (mem_cons_of_mem _ later)⟩

/-- Replacing the head of the window by pieces of it keeps the layout. -/
theorem replace {pieces : List LockRange} (layout : pieces.Pairwise LockRange.Precedes)
    (inside : ∀ r ∈ pieces, r.Sound ∧ other.start ≤ r.start ∧ r.stop ≤ other.stop) :
    (∀ r ∈ behind ++ pieces ++ (rest ++ back), r.Sound) ∧
      (behind ++ pieces ++ (rest ++ back)).Pairwise LockRange.Precedes := by
  obtain ⟨-, before, after, around⟩ := inv.head
  refine splice (fun r mem => inv.sound r ?_) around layout fun r mem => ?_
  · simp only [mem_append, cons_append, mem_cons] at mem ⊢
    tauto
  · obtain ⟨sound, start, stop⟩ := inside r mem
    exact ⟨sound, fun s first => (before s first).trans start,
      fun s last => stop.trans (after s last)⟩

/-- The part of the table away from the head of the window gives nothing on the
offsets of that head, and what is finished gives nothing on the rest of the
range. -/
theorem silent (x : Nat) (o : OwnerKey) (t : LockType) :
    (Gives behind x o t → x < other.start ∧ x < range.start) ∧
      (Gives rest x o t ∨ Gives back x o t → other.stop ≤ x) := by
  obtain ⟨-, before, after, -⟩ := inv.head
  refine ⟨fun given => ⟨?_, ?_⟩, fun given => ?_⟩
  · exact Nat.lt_of_not_le fun reached => not_gives_after before reached o t given
  · exact Nat.lt_of_not_le fun reached => not_gives_after inv.finished reached o t given
  · rw [← gives_append] at given
    exact Nat.le_of_not_lt fun reached => not_gives_before after reached o t given

theorem merge (left : range.start < range.stop) (sticks : range.sticks other = true)
    (owners : range.keys = other.keys) (type : range.type = other.type) :
    Continues back k behind (other :: rest) range behind rest { range with
        start := min range.start other.start
        stop := max range.stop other.stop } := by
  obtain ⟨sound, before, after, layout⟩ := inv.head
  have adjacent : range.start = other.stop ∨ other.start = range.stop := by
    simpa [LockRange.sticks] using sticks
  have extent := sound.nonempty
  -- Either the neighbour ends where the range starts, or the other way round.
  have joined :
      (min range.start other.start = other.start ∧
        max range.stop other.stop = range.stop ∧ range.start = other.stop) ∨
      (min range.start other.start = range.start ∧
        max range.stop other.stop = other.stop ∧ other.start = range.stop) := by
    omega
  generalize min range.start other.start = start at joined ⊢
  generalize max range.stop other.stop = stop at joined ⊢
  constructor
  · refine ⟨inv.owner, inv.typed, ?_, layout, ?_, ?_, ?_⟩
    · intro r mem
      apply inv.sound
      simp only [mem_append] at mem ⊢
      tauto
    · intro r mem
      have := inv.finished r mem
      have := before r mem
      show r.stop ≤ start
      omega
    · intro r mem
      have := inv.bounded r mem
      have := after r (by simp [mem])
      show stop ≤ r.start
      omega
    · intro r mem overlap
      -- A later range does not reach into the merged neighbour.
      have later := after r (by simp [mem])
      have := (inv.sound r (by simp [mem])).nonempty
      apply inv.compatible r (by simp [mem])
      simp only [overlaps_iff] at overlap ⊢
      omega
  · intro x o t
    have quiet := inv.silent x o t
    have otherKeys : other.keys = [k] := owners ▸ inv.owner
    have otherLocks : other.type ≠ .unlock := by
      rcases sound.locking with type | type <;> simp [type]
    simp only [Overlay, gives_append, gives_cons, LockRange.Gives, otherKeys, mem_singleton] at *
    split_ifs <;> grind only

theorem skip (apart : other.stop ≤ range.start) :
    Continues back k behind (other :: rest) range (behind ++ [other]) rest range := by
  have same : (behind ++ [other]) ++ (rest ++ back) = behind ++ ((other :: rest) ++ back) := by simp
  rw [Continues, same]
  refine ⟨⟨inv.owner, inv.typed, ?_, ?_, ?_, inv.bounded, ?_⟩, fun x o t => Iff.rfl⟩
  · rw [same]
    exact inv.sound
  · rw [same]
    exact inv.layout
  · intro r mem
    rcases mem_append.mp mem with mem | mem
    · exact inv.finished r mem
    · rw [mem_singleton.mp mem]
      exact apart
  · intro r mem
    exact inv.compatible r (mem_cons_of_mem _ mem)

/-- Cutting the head of the window in two changes nothing. -/
theorem cut {middle : Nat} (after : other.start < middle) (before : middle < other.stop) :
    Continues back k behind (other :: rest) range behind
      ({ other with stop := middle } :: { other with start := middle } :: rest) range := by
  obtain ⟨sound, -⟩ := inv.head
  have inside : ∀ r ∈ [{ other with stop := middle }, { other with start := middle }],
      r.Sound ∧ other.start ≤ r.start ∧ r.stop ≤ other.stop := by
    rw [forall_mem_cons, forall_mem_singleton]
    exact ⟨⟨⟨after, sound.locking, sound.owned, sound.sorted, sound.exclusiveOwner⟩,
        le_rfl, before.le⟩,
      ⟨before, sound.locking, sound.owned, sound.sorted, sound.exclusiveOwner⟩, after.le, le_rfl⟩
  obtain ⟨allSound, layout⟩ := inv.replace (by simp [LockRange.Precedes]) inside
  rw [append_assoc] at allSound layout
  constructor
  · refine ⟨inv.owner, inv.typed, allSound, layout, inv.finished, inv.bounded, ?_⟩
    intro r mem overlap
    have whole := inv.compatible other (by simp)
    simp only [mem_cons] at mem
    simp only [overlaps_iff] at overlap whole
    rcases mem with rfl | rfl | mem
    · exact whole (by simp only at overlap; omega)
    · exact whole (by simp only at overlap; omega)
    · exact inv.compatible r (by simp [mem]) (by simp [overlaps, overlap])
  · intro x o t
    have halves : (LockRange.Gives { other with stop := middle } x o t ∨
        LockRange.Gives { other with start := middle } x o t) ↔ other.Gives x o t := by
      simp only [LockRange.Gives]
      constructor
      · rintro (⟨low, high, given⟩ | ⟨low, high, given⟩)
        · exact ⟨low, by omega, given⟩
        · exact ⟨by omega, high, given⟩
      · rintro ⟨low, high, given⟩
        rcases Nat.lt_or_ge x middle with front | rear
        · exact .inl ⟨low, front, given⟩
        · exact .inr ⟨rear, high, given⟩
    simp only [Overlay, gives_append, gives_cons, ← halves, or_assoc]

/-- The gap in front of the head of the window takes its part of the range. -/
theorem fillGap (overlap : range.overlaps other = true) (before : range.start < other.start) :
    Continues back k behind (other :: rest) range
      (behind ++ live [{ range with stop := other.start }]) (other :: rest)
      { range with start := other.start } := by
  obtain ⟨sound, starts, after, -⟩ := inv.head
  obtain ⟨-, reaches⟩ : range.start < other.stop ∧ other.start < range.stop := by
    simpa [overlaps] using overlap
  have bounded : ∀ r ∈ (other :: rest) ++ back, other.start ≤ r.start := by
    intro r mem
    rcases mem_cons.mp mem with rfl | later
    · exact le_rfl
    · exact le_trans sound.nonempty.le (after r later)
  obtain ⟨allSound, layout, gives⟩ := (show Placement behind
      ((other :: rest) ++ back) k { range with stop := other.start } from
    ⟨inv.owner, inv.typed, before, inv.finished, bounded⟩).place
      inv.sound inv.layout
  constructor
  · refine ⟨inv.owner, inv.typed, allSound, layout, ?_, inv.bounded, ?_⟩
    · intro r mem
      rcases mem_append.mp mem with mem | mem
      · exact starts r mem
      · rw [(mem_live_singleton mem).1]
    · intro r mem overlaps
      apply inv.compatible r mem
      simp only [overlaps_iff] at overlaps ⊢
      omega
  · intro x o t
    rw [Overlay, gives]
    simp only [Overlay]
    split_ifs <;> grind only

/-- A head of the window that the range covers takes the range over. -/
theorem coverWhole (overlap : range.overlaps other = true) (aligned : range.start = other.start)
    (le : other.stop ≤ range.stop) :
    Continues back k behind (other :: rest) range (behind ++ live [range.absorb other]) rest
      { range with start := other.stop } := by
  obtain ⟨sound, starts, -, -⟩ := inv.head
  have compatible := inv.compatible other (by simp) overlap
  obtain ⟨allSound, layout⟩ := inv.replace (pairwise_live_singleton (range.absorb other))
    fun r mem => by
      obtain ⟨rfl, notUnlocking⟩ := mem_live_singleton mem
      exact ⟨sound.absorb inv.owner inv.typed compatible notUnlocking,
        (absorb_start _ _).ge, (absorb_stop _ _).le⟩
  constructor
  · refine ⟨inv.owner, inv.typed, allSound, layout, ?_, inv.bounded, ?_⟩
    · intro r mem
      rcases mem_append.mp mem with mem | mem
      · exact le_trans (starts r mem) sound.nonempty.le
      · obtain ⟨rfl, -⟩ := mem_live_singleton mem
        exact (absorb_stop _ _).le
    · intro r mem overlaps
      apply inv.compatible r (mem_cons_of_mem _ mem)
      have := sound.nonempty
      simp only [overlaps_iff] at overlaps ⊢
      omega
  · intro x o t
    have quiet := inv.silent x o t
    have extent := sound.nonempty
    have taken : Gives (live [range.absorb other]) x o t ↔
        other.start ≤ x ∧ x < other.stop ∧
          if o = k then range.type = t ∧ t ≠ .unlock
          else o ∈ other.keys ∧ other.type = t := by
      rw [← absorb_gives inv.owner sound compatible o t]
      constructor
      · rintro ⟨r, mem, low, high, given⟩
        obtain ⟨rfl, notUnlocking⟩ := mem_live_singleton mem
        rw [absorb_start] at low
        rw [absorb_stop] at high
        exact ⟨low, high, notUnlocking, given⟩
      · rintro ⟨low, high, notUnlocking, given⟩
        refine ⟨range.absorb other, ?_, ?_, ?_, given⟩
        · simp [live_singleton, notUnlocking]
        · rwa [absorb_start]
        · rwa [absorb_stop]
    simp only [Overlay, gives_append, gives_cons, cons_append]
    have given : other.Gives x o t ↔
      other.start ≤ x ∧ x < other.stop ∧ o ∈ other.keys ∧ other.type = t := Iff.rfl
    split_ifs <;> grind only

end

/-- An empty rest of the range may start anywhere after what is finished. -/
theorem exhaust {todo : List LockRange} (inv : LoopInvariant behind todo back k range) {start : Nat}
    (later : range.start ≤ start) (nothing : range.stop ≤ range.start) :
    Continues back k behind todo range behind todo { range with start := start } := by
  constructor
  · refine ⟨inv.owner, inv.typed, inv.sound, inv.layout,
      fun r mem => le_trans (inv.finished r mem) later,
      inv.bounded, fun r mem overlap => inv.compatible r mem ?_⟩
    simp only [overlaps_iff] at overlap ⊢
    omega
  · intro x o t
    have outside : ¬ (range.start ≤ x ∧ x < range.stop ∧ o = k) := by omega
    have outside' : ¬ (start ≤ x ∧ x < range.stop ∧ o = k) := by omega
    simp only [Overlay, outside, outside']

end LoopInvariant

/-- One iteration keeps the invariant and what the table will give. -/
theorem InsertCursor.Moves.preserves {c c' : InsertCursor} (moves : c.Moves c')
    (inv : LoopInvariant (front ++ live c.done) c.todo back k c.range) :
    Continues back k (front ++ live c.done) c.todo c.range
      (front ++ live c'.done) c'.todo c'.range := by
  cases moves with
  | @merge range other done rest left sticks owners type =>
    have dropped : live [other.markUnlocking] = [] := by
      simp [live_singleton, unlocking, markUnlocking]
    simp only [live_append, dropped, append_nil]
    exact inv.merge left sticks owners type
  | @skip range other done rest left reaches apart =>
    have kept : live [other] = [other] := by
      simp [live_singleton, (inv.head.1).not_unlocking]
    simp only [live_append, kept, ← append_assoc front]
    exact inv.skip apart
  | fillGap left overlap before =>
    simp only [live_append, ← append_assoc front]
    exact inv.fillGap overlap before
  | @coverFront range other done rest left overlap aligned inside =>
    -- Cut the existing range at the end of the new one, cover its first half;
    -- nothing of the range is left then.
    have cut := inv.cut (aligned ▸ left) inside
    have front : range.overlaps { other with stop := range.stop } = true := by
      simp [overlaps]
      omega
    have covered := cut.1.coverWhole front aligned le_rfl
    simp only [live_append, ← append_assoc]
    exact (cut.trans covered).trans (covered.1.exhaust inside.le le_rfl)
  | coverWhole left overlap aligned beyond =>
    simp only [live_append, ← append_assoc front]
    exact inv.coverWhole overlap aligned beyond
  | @cutFront range other done rest left overlap after =>
    have reaches : range.start < other.stop := by
      simp only [overlaps_iff] at overlap
      exact overlap.1
    have cut := inv.cut after reaches
    have kept : live [{ other with stop := range.start }] =
        [{ other with stop := range.start }] := by
      simp [live_singleton, (cut.1.head.1).not_unlocking]
    simp only [live_append, kept, ← append_assoc front]
    exact cut.trans (cut.1.skip le_rfl)

/-- After the last iteration: what is left of the range fits between what is
finished and the rest of the window. -/
theorem InsertCursor.close_spec {c : InsertCursor} (stopped : c.step = none)
    (inv : LoopInvariant (front ++ live c.done) c.todo back k c.range) :
    LockRanges.Sound { data := front ++ c.close ++ back } ∧ ∀ x o t,
        Gives (front ++ c.close ++ back) x o t ↔
          Overlay c.range k ((front ++ live c.done) ++ (c.todo ++ back)) x o t := by
  have todoSound : ∀ r ∈ c.todo, r.Sound := fun r mem =>
    inv.sound r (by simp [mem])
  have closed : front ++ c.close ++ back =
      ((front ++ live c.done) ++
        live (if c.range.start < c.range.stop then [c.range] else [])) ++ (c.todo ++ back) := by
    have parts : c.close = live c.done ++
        live (if c.range.start < c.range.stop then [c.range] else []) ++ live c.todo := by
      simp only [← live_append]
      rfl
    rw [parts, live_of_sound todoSound]
    simp only [append_assoc]
  rw [closed]
  by_cases left : c.range.start < c.range.stop
  · have bounded : ∀ r ∈ c.todo ++ back, c.range.stop ≤ r.start := by
      intro r mem
      rcases mem_append.mp mem with window | after
      · rcases InsertCursor.step_eq_none stopped with
          nothing | empty | ⟨other, rest, todo, past⟩
        · omega
        · simp [empty] at window
        · have invariantHead := todo ▸ inv
          obtain ⟨sound, -, later, -⟩ := invariantHead.head
          rw [todo] at window
          rcases mem_cons.mp window with rfl | window
          · exact past
          · have := later r (by simp [window])
            have := sound.nonempty
            omega
      · exact inv.bounded r after
    rw [if_pos left]
    obtain ⟨sound, layout, gives⟩ := Placement.place
      ⟨inv.owner, inv.typed, left, inv.finished, bounded⟩
      inv.sound inv.layout
    exact ⟨⟨sound, layout⟩, gives⟩
  · have nothing : live [] = [] := rfl
    rw [if_neg left, nothing, append_nil]
    refine ⟨⟨inv.sound, inv.layout⟩, fun x o t => ?_⟩
    have outside : ¬ (c.range.start ≤ x ∧ x < c.range.stop ∧ o = k) := by omega
    simp only [Overlay, outside, if_false]

/-!
The window.  Ranges in front of it end before the request starts and ranges after
it start behind the end of the request, so the window sees every overlap.
-/

namespace LockRanges

variable {locks : LockRanges} {range : LockRange} {k : OwnerKey}

theorem Sound.partitioned (h : locks.Sound) (before : Nat → Bool)
    (downward : ∀ a b, a ≤ b → before b = true → before a = true) :
    locks.data.Pairwise (fun a b => before b.start = true → before a.start = true) :=
  h.layout.imp_of_mem fun {a b} memberA _ precedes hit =>
    downward a.start b.start (le_trans (h.ranges a memberA).nonempty.le precedes) hit

theorem Sound.stop_le_of_mem_front (h : locks.Sound) {r : LockRange}
    (mem : r ∈ (touched locks.data range).front) : r.stop ≤ range.start := by
  obtain ⟨later, -, starts, precedes⟩ := exists_later_of_mem_take_stepBack h.layout mem
  have : later.start < range.start := by simpa using starts
  exact le_trans precedes this.le

theorem Sound.lt_start_of_mem_back (h : locks.Sound) {r : LockRange}
    (mem : r ∈ (touched locks.data range).back) : range.stop < r.start := by
  have dropped : r ∈ locks.data.drop (lastTouched locks.data range.stop) :=
    (drop_sublist_drop_left _ (le_max_right _ _)).subset mem
  have partitioned := h.partitioned
    (fun start => !decide (range.stop < start))
    (fun a b le hit => by
      simp only [Bool.not_eq_true', decide_eq_false_iff_not] at hit ⊢
      omega)
  simpa using not_before_of_mem_drop partitioned dropped

/-- For a request that locks, no collision is compatibility with every range it
overlaps. -/
theorem collides_eq_false_iff (range other : LockRange) : collides range other = false ↔
      (range.overlaps other = true → other.keys = range.keys ∨
        (range.type = .shared ∧ other.type = .shared)) := by
  rw [Bool.eq_false_iff, ne_eq, collides, Bool.and_eq_true, Bool.and_eq_true,
    Bool.not_eq_true', Bool.eq_false_iff, ne_eq, sameOwners_iff]
  simp only [Bool.or_eq_true, Bool.not_eq_true', beq_eq_false_iff_ne]
  tauto

/-- The request fits exactly when every range it overlaps can stand beside it. -/
theorem Sound.fits_iff (h : locks.Sound) (req : range.Request k) : locks.fits range = true ↔
      ∀ other ∈ locks.data, range.overlaps other = true → range.Compatible other := by
  by_cases unlock : range.type = .unlock
  · simp [fits, findCollision, unlocking, LockRange.Compatible, unlock]
  have locking : range.unlocking = false := by
    simpa [unlocking_eq_false_iff, req.owner] using unlock
  have searched : locks.fits range = true ↔
      ∀ other ∈ (touched locks.data range).middle, collides range other = false := by
    simp [fits, findCollision, locking]
  have agrees (other : LockRange) (mem : other ∈ locks.data) :
      collides range other = false ↔ (range.overlaps other = true → range.Compatible other) := by
    rw [collides_eq_false_iff, LockRange.Compatible]
    simp only [unlock, false_or, eq_comm]
  rw [searched]
  constructor
  · intro free other mem
    rw [← agrees other mem]
    rw [← touched_parts locks.data range, mem_append, mem_append] at mem
    rcases mem with front | middle | back
    · have := h.stop_le_of_mem_front front
      rw [collides_eq_false_iff]
      intro overlap
      simp only [overlaps_iff] at overlap
      omega
    · exact free other middle
    · have := h.lt_start_of_mem_back back
      rw [collides_eq_false_iff]
      intro overlap
      simp only [overlaps_iff] at overlap
      omega
  · intro compatible other middle
    have mem : other ∈ locks.data := by
      rw [← touched_parts locks.data range]
      simp [middle]
    exact (agrees other mem).mpr (compatible other mem)

/-- At the start of the loop the invariant holds. -/
theorem Sound.loopInvariant (h : locks.Sound) (req : range.Request k)
    (fits : locks.fits range = true) :
    LoopInvariant (touched locks.data range).front (touched locks.data range).middle
      (touched locks.data range).back k range := by
  have parts := touched_parts locks.data range
  refine ⟨req.owner, req.typed, ?_, ?_, ?_, ?_, ?_⟩
  · rw [parts]
    exact h.ranges
  · rw [parts]
    exact h.layout
  · exact fun r => h.stop_le_of_mem_front
  · exact fun r mem => (h.lt_start_of_mem_back mem).le
  · intro r mem
    apply (h.fits_iff req).mp fits r
    rw [← parts]
    simp [mem]

/-- Insertion keeps the table sound and gives the inserted range to its owner,
and to everybody else what they had. -/
theorem Sound.insert_spec (h : locks.Sound) (req : range.Request k)
    (fits : locks.fits range = true) : (locks.insert range).Sound ∧
      ∀ x o t, Gives (locks.insert range).data x o t ↔ Overlay range k locks.data x o t := by
  -- Every iteration goes on from where the loop started.
  have state := InsertCursor.loop_preserves
    (P := fun c => Continues (touched locks.data range).back k (touched locks.data range).front
      (touched locks.data range).middle range ((touched locks.data range).front ++ live c.done)
      c.todo c.range)
    (fun c c' state moves => state.trans (moves.preserves state.1)) (locks.cursor range).cost (by
      have start : live (locks.cursor range).done = [] := rfl
      rw [start, append_nil]
      exact ⟨h.loopInvariant req fits, fun x o t => Iff.rfl⟩)
  obtain ⟨result, gives⟩ := InsertCursor.close_spec (InsertCursor.loop_stopped le_rfl) state.1
  refine ⟨result, fun x o t => ?_⟩
  have same := (gives x o t).trans (state.2 x o t)
  rwa [touched_parts] at same

variable {x : Nat} {o : OwnerKey}

/-- No two ranges of a sound table have an offset in common. -/
theorem Sound.eq_of_common_offset (h : locks.Sound) {r s : LockRange}
    (memberR : r ∈ locks.data) (memberS : s ∈ locks.data) (lowR : r.start ≤ x) (highR : x < r.stop)
    (lowS : s.start ≤ x) (highS : x < s.stop) : r = s := by
  by_contra ne
  have : Std.Symm (fun a b : LockRange => a.Precedes b ∨ b.Precedes a) := ⟨fun _ _ => Or.symm⟩
  have either : locks.data.Pairwise
      (fun a b => a.Precedes b ∨ b.Precedes a) := h.layout.imp .inl
  have apart := either.forall memberR memberS ne
  simp only [LockRange.Precedes] at apart
  omega

/-- A range is found by the executable view exactly where it gives something. -/
theorem covers_iff (range : LockRange) (x : Nat) (o : OwnerKey) :
    range.covers x o = true ↔ range.Gives x o range.type := by
  simp [covers, LockRange.Gives, and_assoc]

theorem Sound.heldMode_of_gives (h : locks.Sound)
    {t : LockType} (given : Gives locks.data x o t) : locks.heldMode x o = t.mode := by
  obtain ⟨r, mem, low, high, owner, rfl⟩ := given
  unfold heldMode
  split
  next found search =>
    have covered : found.covers x o = true := by simpa using find?_some search
    have gives := (covers_iff found x o).mp covered
    have same := h.eq_of_common_offset mem
      (mem_of_find?_eq_some search) low high gives.1 gives.2.1
    rw [same]
  next search =>
    have missed := find?_eq_none.mp search r mem
    exact absurd ((covers_iff r x o).mpr ⟨low, high, owner, rfl⟩) missed

theorem heldMode_of_not_gives
    (nothing : ∀ t, ¬ Gives locks.data x o t) : locks.heldMode x o = .none := by
  unfold heldMode
  split
  next found search =>
    have covered : found.covers x o = true := by simpa using find?_some search
    have gives := (covers_iff found x o).mp covered
    exact absurd ⟨found, mem_of_find?_eq_some search, gives⟩ (nothing _)
  · rfl

/-- Sound tables that give the same have the same held map. -/
theorem Sound.heldMode_congr {other : LockRanges} (h : locks.Sound) (otherSound : other.Sound)
    (same : ∀ t, Gives other.data x o t ↔ Gives locks.data x o t) :
    other.heldMode x o = locks.heldMode x o := by
  by_cases held : ∃ t, Gives locks.data x o t
  · obtain ⟨t, given⟩ := held
    rw [h.heldMode_of_gives given, otherSound.heldMode_of_gives ((same t).mpr given)]
  · have nothing : ∀ t, ¬ Gives locks.data x o t := fun t given => held ⟨t, given⟩
    rw [heldMode_of_not_gives nothing,
      heldMode_of_not_gives fun t given => nothing t ((same t).mp given)]

/-- Insertion is the point update of the held map. -/
theorem Sound.heldMode_insert (h : locks.Sound) (req : range.Request k)
    (fits : locks.fits range = true) : (locks.insert range).heldMode =
      locks.heldMode.assign range.start range.stop k range.type.mode := by
  obtain ⟨after, gives⟩ := h.insert_spec req fits
  funext x o
  unfold HeldMap.assign
  split
  next inside =>
    by_cases unlock : range.type = .unlock
    · rw [unlock]
      refine heldMode_of_not_gives fun t given => ?_
      rw [gives, Overlay, if_pos inside, unlock] at given
      exact given.2 given.1.symm
    · apply after.heldMode_of_gives
      rw [gives, Overlay, if_pos inside]
      exact ⟨rfl, unlock⟩
  next outside =>
    refine h.heldMode_congr after fun t => ?_
    rw [gives, Overlay, if_neg outside]

/-- The tables reached from the empty one by insertions of fitting requests. -/
inductive Reached : LockRanges → Prop where
  | empty : Reached LockRanges.empty
  | insert {locks : LockRanges} {range : LockRange} {k : OwnerKey}
      (before : Reached locks) (request : range.Request k)
      (fits : locks.fits range = true) : Reached (locks.insert range)

theorem Sound.empty : LockRanges.empty.Sound :=
  ⟨fun _ mem => absurd mem not_mem_nil, List.Pairwise.nil⟩

theorem Reached.sound (reached : Reached locks) : locks.Sound := by
  induction reached with
  | empty => exact Sound.empty
  | insert _ req fits sound => exact (sound.insert_spec req fits).1

/-- A table of lock ranges refines the map from offsets and owners to modes: it
is sorted, disjoint and sound after any insertions, and every further insertion
changes the mode of its owner on its offsets and nothing else. -/
theorem Reached.refines_heldMap (reached : Reached locks) :
    locks.Sound ∧
      ∀ (range : LockRange) (k : OwnerKey), range.Request k →
        locks.fits range = true →
          (locks.insert range).Sound ∧
            (locks.insert range).heldMode =
              locks.heldMode.assign range.start range.stop k range.type.mode :=
  ⟨reached.sound, fun _ _ request fits =>
    ⟨(reached.sound.insert_spec request fits).1, reached.sound.heldMode_insert request fits⟩⟩

/-- An owner that holds `[0, 10)` exclusively shares the middle of it. -/
theorem Reached.refines_heldMap_downgrade :
    let owner : Owner := ⟨7, 3, 0, 0⟩
    let locks := LockRanges.empty.insert (.single .exclusive 0 10 owner)
    let range := single .shared 4 6 owner
    locks.fits range = true ∧ (locks.insert range).Sound ∧
      (locks.insert range).heldMode = locks.heldMode.assign 4 6 owner.key .shared := by
  intro owner locks range
  have first : (single .exclusive 0 10 owner).Request owner.key :=
    ⟨by decide, rfl, by decide⟩
  have reached : Reached locks := .insert .empty first (by decide)
  exact ⟨by decide, reached.refines_heldMap.2 range owner.key
    ⟨by decide, rfl, by decide⟩ (by decide)⟩

end LockRanges

/-- A range that is not owned by `k` alone has another owner. -/
theorem LockRange.Sound.exists_other {r : LockRange} (h : r.Sound) {k : OwnerKey}
    (ne : r.keys ≠ [k]) : ∃ o ∈ r.keys, o ≠ k := by
  by_contra none
  push Not at none
  have owned : r.keys ≠ [] := by simpa [LockRange.keys] using h.owned
  have nodup : r.keys.Nodup := h.sorted.imp fun less => ne_of_lt less
  cases keys : r.keys with
  | nil => exact owned keys
  | cons first rest =>
    rw [keys] at none nodup ne
    have firstKey := none first (by simp)
    cases rest with
    | nil => exact ne (by rw [firstKey])
    | cons second rest =>
      have secondKey := none second (by simp)
      simp [firstKey, secondKey] at nodup

end LeilFS.Locks
