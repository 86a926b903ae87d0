/-
Module: LeilFS.Locks.Probe
Purpose: What the search for a collision tells about the locks of other owners.
Trusted boundary: none
-/
import LeilFS.Locks.Insert

namespace LeilFS.Locks

/-- Another owner has the range, and the request or the range is exclusive. -/
def LockRange.Conflicts (range other : LockRange) (k : OwnerKey) : Prop :=
  ∃ o ∈ other.keys, o ≠ k ∧ (range.type = .exclusive ∨ other.type = .exclusive)

namespace LockRanges

variable {locks : LockRanges} {range : LockRange} {k : OwnerKey}

/-- For a request that locks, a collision is an overlap with a range of another owner, one of
both being exclusive. -/
theorem Sound.collides_iff (h : locks.Sound) (req : range.Request k)
    (locking : range.type ≠ .unlock) {other : LockRange} (mem : other ∈ locks.data) :
    collides range other = true ↔ range.overlaps other = true ∧ range.Conflicts other k := by
  have kinds : range.type = .shared ∨ range.type = .exclusive := by
    cases type : range.type with
    | shared => exact .inl rfl
    | exclusive => exact .inr rfl
    | unlock => exact absurd type locking
    | invalid => exact absurd type req.typed
  have otherKinds := (h.ranges other mem).locking
  rw [← Bool.not_eq_false, collides_eq_false_iff, req.owner]
  constructor
  · intro apart
    rw [Classical.not_imp, not_or] at apart
    obtain ⟨overlap, ne, notShared⟩ := apart
    obtain ⟨o, owner, differs⟩ := (h.ranges other mem).exists_other ne
    refine ⟨overlap, o, owner, differs, ?_⟩
    rcases kinds with shared | exclusive
    · exact .inr (otherKinds.resolve_left fun both => notShared ⟨shared, both⟩)
    · exact .inl exclusive
  · rintro ⟨overlap, o, owner, differs, exclusive⟩ free
    rcases free overlap with same | ⟨shared, otherShared⟩
    · rw [same, List.mem_singleton] at owner
      exact differs owner
    · rw [shared, otherShared] at exclusive
      rcases exclusive with no | no <;> cases no

/-- What is found is in the table and collides. -/
theorem findCollision_eq_some {other : LockRange} (found : locks.findCollision range = some other) :
    range.unlocking = false ∧ other ∈ locks.data ∧ collides range other = true := by
  unfold findCollision at found
  by_cases unlocking : range.unlocking = true
  · rw [if_pos unlocking] at found
    cases found
  · rw [if_neg unlocking] at found
    refine ⟨Bool.eq_false_iff.mpr unlocking, ?_, List.find?_some found⟩
    rw [← touched_parts locks.data range]
    simp [List.mem_of_find?_eq_some found]

/-- A request that locks collides with nothing exactly when it collides with no range of the
table. -/
theorem Sound.findCollision_eq_none (h : locks.Sound) (req : range.Request k)
    (locking : range.type ≠ .unlock) :
    locks.findCollision range = none ↔ ∀ other ∈ locks.data, collides range other = false := by
  have fits : locks.findCollision range = none ↔ locks.fits range = true := by
    rw [LockRanges.fits, Option.isNone_iff_eq_none]
  rw [fits, h.fits_iff req]
  refine forall_congr' fun other => imp_congr_right fun _ => ?_
  rw [collides_eq_false_iff, LockRange.Compatible]
  simp only [locking, false_or, eq_comm]

/-- A range of another owner that the request overlaps is held at a common offset, and the
other way round. -/
theorem Sound.exists_conflict_iff (h : locks.Sound) (req : range.Request k) :
    (∃ other ∈ locks.data, range.overlaps other = true ∧ range.Conflicts other k) ↔
      ∃ x o, range.start ≤ x ∧ x < range.stop ∧ o ≠ k ∧ locks.heldMode x o ≠ .none ∧
        (range.type = .exclusive ∨ locks.heldMode x o = .exclusive) := by
  constructor
  · rintro ⟨other, mem, overlap, o, owner, differs, exclusive⟩
    obtain ⟨low, high⟩ := (range.overlaps_iff other).mp overlap
    have otherNonempty := (h.ranges other mem).nonempty
    have ne := req.nonempty
    have held : locks.heldMode (max range.start other.start) o = other.type.mode :=
      h.heldMode_of_gives
        ⟨other, mem, le_max_right _ _, max_lt low otherNonempty, owner, rfl⟩
    refine ⟨max range.start other.start, o, le_max_left _ _, max_lt ne high, differs, ?_, ?_⟩
    · rw [held]
      rcases (h.ranges other mem).locking with type | type
      · rw [type]
        simp [LockType.mode]
      · rw [type]
        simp [LockType.mode]
    · rw [held]
      exact exclusive.imp_right fun type => by rw [type]; rfl
  · rintro ⟨x, o, low, high, differs, held, exclusive⟩
    obtain ⟨t, other, mem, otherLow, otherHigh, owner, rfl⟩ :
        ∃ t, Gives locks.data x o t := by
      by_contra nothing
      push Not at nothing
      exact held (heldMode_of_not_gives nothing)
    have mode := h.heldMode_of_gives (o := o) ⟨other, mem, otherLow, otherHigh, owner, rfl⟩
    have overlap := (range.overlaps_iff other).mpr ⟨by omega, by omega⟩
    refine ⟨other, mem, overlap, o, owner, differs, ?_⟩
    refine exclusive.imp_right fun is => ?_
    rw [mode] at is
    rcases (h.ranges other mem).locking with type | type
    · rw [type] at is
      cases is
    · exact type

/-- The search for a collision is exact: nothing collides with a request that unlocks, and for
one that locks something is found if and only if another owner holds an offset of the request
and one of both is exclusive; what is found is a range of the table that conflicts. -/
theorem Reached.findCollision_exact (reached : Reached locks) (request : range.Request k) :
    (range.type = .unlock → locks.findCollision range = none) ∧
    (range.type ≠ .unlock →
      (locks.findCollision range ≠ none ↔
        ∃ x o, range.start ≤ x ∧ x < range.stop ∧ o ≠ k ∧ locks.heldMode x o ≠ .none ∧
          (range.type = .exclusive ∨ locks.heldMode x o = .exclusive))) ∧
    ∀ other, locks.findCollision range = some other →
      other ∈ locks.data ∧ range.overlaps other = true ∧ range.Conflicts other k := by
  have sound := reached.sound
  refine ⟨fun unlock => ?_, fun locking => ?_, fun other found => ?_⟩
  · have unlocking : range.unlocking = true := (LockRange.unlocking_iff range).mpr (.inl unlock)
    rw [findCollision, if_pos unlocking]
  · rw [← sound.exists_conflict_iff request, ne_eq, sound.findCollision_eq_none request locking]
    push Not
    refine exists_congr fun other => and_congr_right fun member => ?_
    rw [Bool.ne_false_iff, sound.collides_iff request locking member]
  · obtain ⟨locking, member, collision⟩ := findCollision_eq_some found
    have notUnlock : range.type ≠ .unlock := fun unlock => by
      rw [(LockRange.unlocking_iff range).mpr (.inl unlock)] at locking
      cases locking
    exact ⟨member, (sound.collides_iff request notUnlock member).mp collision⟩

/-- Two owners share `[0, 10)`, and the first one asks for the middle of it exclusively: the
second one is in the way. -/
theorem Reached.findCollision_exact_sharedByBoth :
    let first : Owner := ⟨1, 1, 0, 0⟩
    let second : Owner := ⟨2, 1, 0, 0⟩
    let locks := (LockRanges.empty.insert (.single .shared 0 10 first)).insert
      (.single .shared 0 10 second)
    let range := LockRange.single .exclusive 4 6 first
    ∃ x o, range.start ≤ x ∧ x < range.stop ∧ o ≠ first.key ∧ locks.heldMode x o ≠ .none ∧
      (range.type = .exclusive ∨ locks.heldMode x o = .exclusive) := by
  intro first second locks range
  have reached : Reached locks :=
    .insert (k := second.key) (.insert (k := first.key) .empty ⟨by decide, rfl, by decide⟩
      (by decide)) ⟨by decide, rfl, by decide⟩ (by decide)
  have request : range.Request first.key := ⟨by decide, rfl, by decide⟩
  exact ((reached.findCollision_exact request).2.1 (by decide)).mp (by decide)

end LockRanges

end LeilFS.Locks
