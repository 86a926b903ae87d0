/-
Module: LeilFS.Chunks.GoalDefinition
Purpose: The goals that can be configured, and that every part of a slice still asks for a
  copy when the goals of several files are merged.
Trusted boundary: none
-/
import LeilFS.Chunks.Redundancy
import LeilFS.Chunks.GoalCounters

namespace LeilFS.Chunks

open List

open MediaLabel (kWildcard)

/-! ## Labels with the wildcard at the end -/

namespace Labels

/-- Nothing comes after the wildcard. -/
def WildcardLast (labels : Labels) : Prop :=
  labels.Pairwise fun first _ => first.1 ≠ kWildcard

theorem le_kWildcard (label : MediaLabel) : label ≤ kWildcard := by
  have bound := label.handle.toNat_lt
  show label.handle.toNat ≤ 65535
  omega

theorem countLabels_append (first second : Labels) :
    countLabels (first ++ second) = first.countLabels + second.countLabels := by
  unfold countLabels
  rw [map_append, sum_append]

/-- The copies that are asked for by name. -/
def namedSum (labels : Labels) : Nat :=
  countLabels (labels.filter (·.1 ≠ kWildcard))

theorem namedSum_append (first second : Labels) :
    namedSum (first ++ second) = first.namedSum + second.namedSum := by
  unfold namedSum
  rw [filter_append, countLabels_append]

/-- At most one count is not of a named label. -/
theorem WildcardLast.countLabels_le {labels : Labels} (last : labels.WildcardLast) :
    labels.countLabels ≤ labels.namedSum + 65535 := by
  induction labels with
  | nil => exact Nat.zero_le _
  | cons entry labels ih =>
    obtain ⟨after, later⟩ := pairwise_cons.mp last
    have bound := entry.2.toNat_lt
    by_cases named : entry.1 = kWildcard
    · have nothing : labels = [] := eq_nil_iff_forall_not_mem.mpr fun other mem =>
        after other mem named
      subst nothing
      simp only [countLabels, map_cons, map_nil, sum_singleton]
      omega
    have rest := ih later
    unfold namedSum at rest ⊢
    rw [filter_cons_of_pos (by simpa using named)]
    simp only [countLabels, map_cons, sum_cons] at rest ⊢
    omega

/-! ### Unions -/

namespace Union

/-- What the union has become by taking in some labels of the two parts. -/
structure Tracks (u v : Union) (first second : Labels) : Prop where
  named : (∀ entry ∈ u.result, entry.1 ≠ kWildcard) →
    ∀ entry ∈ v.result, entry.1 ≠ kWildcard
  merged : v.mergedSum + u.result.countLabels = u.mergedSum + v.result.countLabels
  firstSum : v.firstSum = u.firstSum + first.countLabels
  secondSum : v.secondSum = u.secondSum + second.countLabels
  firstNamed : u.mergedSum + first.namedSum ≤ v.mergedSum
  secondNamed : u.mergedSum + second.namedSum ≤ v.mergedSum

variable {u v w : Union} {first first' second second' : Labels}

theorem Tracks.refl (u : Union) : Tracks u u [] [] where
  named := id
  merged := rfl
  firstSum := rfl
  secondSum := rfl
  firstNamed := Nat.le_refl _
  secondNamed := Nat.le_refl _

theorem Tracks.trans (one : Tracks u v first second) (two : Tracks v w first' second') :
    Tracks u w (first ++ first') (second ++ second') where
  named := two.named ∘ one.named
  merged := by have := one.merged; have := two.merged; omega
  firstSum := by rw [two.firstSum, one.firstSum, countLabels_append, Nat.add_assoc]
  secondSum := by rw [two.secondSum, one.secondSum, countLabels_append, Nat.add_assoc]
  firstNamed := by
    have := one.firstNamed; have := two.firstNamed
    rw [namedSum_append]
    omega
  secondNamed := by
    have := one.secondNamed; have := two.secondNamed
    rw [namedSum_append]
    omega

/-- A named label comes in, with what the two parts have of it. -/
theorem tracks_add {label : MediaLabel} {count : UInt16} (named : label ≠ kWildcard)
    (ofFirst : first.namedSum ≤ count.toNat) (ofSecond : second.namedSum ≤ count.toNat) : Tracks u
      { result := u.result ++ [(label, count)]
        firstSum := u.firstSum + first.countLabels
        secondSum := u.secondSum + second.countLabels
        mergedSum := u.mergedSum + count.toNat } first second where
  named := fun prev entry mem => by
    rcases mem_append.mp mem with old | new
    · exact prev entry old
    · rw [mem_singleton.mp new]
      exact named
  merged := by
    rw [countLabels_append]
    simp only [countLabels, map_cons, map_nil, sum_singleton]
    omega
  firstSum := rfl
  secondSum := rfl
  firstNamed := Nat.add_le_add_left ofFirst _
  secondNamed := Nat.add_le_add_left ofSecond _

/-- A wildcard adds to the sums only. -/
theorem tracks_wildcards (noFirst : first.namedSum = 0) (noSecond : second.namedSum = 0) : Tracks u
      { u with
        firstSum := u.firstSum + first.countLabels
        secondSum := u.secondSum + second.countLabels } first second where
  named := id
  merged := rfl
  firstSum := rfl
  secondSum := rfl
  firstNamed := by rw [noFirst]; exact Nat.le_refl _
  secondNamed := by rw [noSecond]; exact Nat.le_refl _

theorem countLabels_singleton (entry : MediaLabel × UInt16) :
    countLabels [entry] = entry.2.toNat := by
  simp [countLabels]

theorem namedSum_singleton_le (entry : MediaLabel × UInt16) : namedSum [entry] ≤ entry.2.toNat := by
  unfold namedSum
  rw [filter_cons]
  split
  · exact Nat.le_of_eq (countLabels_singleton entry)
  · exact Nat.zero_le _

variable {entry : MediaLabel × UInt16}

theorem tracks_addSecond (named : entry.1 ≠ kWildcard) :
    Tracks u (u.addSecond entry) [] [entry] := by
  have tracks := @tracks_add u [] [entry] _ _ named (Nat.zero_le _) (namedSum_singleton_le entry)
  exact tracks

theorem tracks_addFirst (named : entry.1 ≠ kWildcard) : Tracks u (u.addFirst entry) [entry] [] := by
  have tracks := @tracks_add u [entry] [] _ _ named (namedSum_singleton_le entry) (Nat.zero_le _)
  exact tracks

theorem tracks_addBoth {label : MediaLabel} (named : label ≠ kWildcard) (count other : UInt16) :
    Tracks u (u.addBoth label count other) [(label, count)] [(label, other)] := by
  have larger : count.toNat ≤ (max count other).toNat ∧ other.toNat ≤ (max count other).toNat := by
    show count.toNat ≤ (if count ≤ other then other else count).toNat ∧
      other.toNat ≤ (if count ≤ other then other else count).toNat
    split
    next less => exact ⟨UInt16.le_iff_toNat_le.mp less, Nat.le_refl _⟩
    next more =>
      exact ⟨Nat.le_refl _, Nat.le_of_lt (UInt16.lt_iff_toNat_lt.mp (UInt16.not_le.mp more))⟩
  have tracks := @tracks_add u [(label, count)] [(label, other)] label (max count other) named
    ((namedSum_singleton_le _).trans larger.1) ((namedSum_singleton_le _).trans larger.2)
  rw [countLabels_singleton] at tracks
  exact tracks

theorem tracks_addRest : Tracks u (u.addRest entry) [] [entry] := by
  unfold addRest
  split
  next named => exact tracks_addSecond named
  next isWildcard =>
    have none : namedSum [entry] = 0 := by
      unfold namedSum
      rw [filter_cons_of_neg (by simpa using isWildcard)]
      rfl
    have tracks := @tracks_wildcards u [] [entry] rfl none
    exact tracks

theorem tracks_foldl_addSecond (entries : Labels) (named : ∀ entry ∈ entries, entry.1 ≠ kWildcard) :
    Tracks u (entries.foldl addSecond u) [] entries := by
  induction entries generalizing u with
  | nil => exact Tracks.refl u
  | cons entry entries ih =>
    exact (tracks_addSecond (named entry mem_cons_self)).trans
      (ih fun other mem => named other (mem_cons_of_mem _ mem))

theorem tracks_foldl_addRest (entries : Labels) :
    Tracks u (entries.foldl addRest u) [] entries := by
  induction entries generalizing u with
  | nil => exact Tracks.refl u
  | cons entry entries ih => exact tracks_addRest.trans ih

/-- The loop takes in all the labels of both parts. -/
theorem tracks_loop (last : first.WildcardLast) : Tracks u (loop first second u) first second := by
  induction first generalizing second u with
  | nil => exact tracks_foldl_addRest second
  | cons entry first ih =>
    obtain ⟨label, count⟩ := entry
    obtain ⟨after, later⟩ := pairwise_cons.mp last
    unfold loop
    split
    next isWildcard =>
      have nothing : first = [] := eq_nil_iff_forall_not_mem.mpr fun other mem =>
        after other mem isWildcard
      subst nothing
      have none : namedSum [(label, count)] = 0 := by
        unfold namedSum
        rw [filter_cons_of_neg (by simpa using isWildcard)]
        rfl
      have tracks := @tracks_wildcards u [(label, count)] [] none rfl
      exact tracks.trans (tracks_foldl_addRest second)
    next named =>
      have taken : ∀ {v : Union}, Tracks v (v.addFirst (label, count)) [(label, count)] [] :=
        tracks_addFirst named
      have below := @tracks_foldl_addSecond u (second.takeWhile (·.1 < label)) fun other mem =>
        have prev : other.1 < label := by simpa using mem_takeWhile_imp mem
        ne_of_lt (prev.trans_le (le_kWildcard label))
      have whole : second.takeWhile (·.1 < label) ++ second.dropWhile (·.1 < label) = second :=
        takeWhile_append_dropWhile
      split
      next nothing =>
        rw [nothing] at whole
        have tracks := below.trans (taken.trans (@ih _ [] later))
        rwa [nil_append, nil_append, whole] at tracks
      next other otherCount rest isRest =>
        rw [isRest] at whole
        split
        next less =>
          have tracks := below.trans (taken.trans (@ih _ ((other, otherCount) :: rest) later))
          rwa [nil_append, nil_append, whole] at tracks
        next notLess =>
          have notBefore : ¬other < label := by
            have head := head?_dropWhile_not (·.1 < label) second
            simpa [isRest] using head
          obtain rfl : label = other := le_antisymm (not_lt.mp notBefore) (not_lt.mp notLess)
          have tracks := below.trans
            ((tracks_addBoth named count otherCount).trans (@ih _ rest later))
          rwa [singleton_append, singleton_append, whole] at tracks

end Union

/-- A part asks for a copy, and has the wildcard at its end. -/
structure Asking (labels : Labels) : Prop where
  asks : 0 < labels.countLabels
  last : labels.WildcardLast

/-- The union of two parts that ask for copies asks for some.  The wildcards that it adds are
cut to 16 bits, which only matters when some label is named. -/
theorem asking_makeLabelsUnion {first second : Labels} (one : first.Asking)
    (two : second.Asking) : (makeLabelsUnion first second).Asking := by
  have tracks := @Union.tracks_loop {} first second one.last
  unfold makeLabelsUnion Union.finish
  generalize Union.loop first second {} = union at tracks
  have named := tracks.named fun _ none => absurd none not_mem_nil
  have merged : union.mergedSum = union.result.countLabels := by
    have := tracks.merged
    simpa [countLabels] using this
  have firstBound := one.last.countLabels_le
  have secondBound := two.last.countLabels_le
  have firstSum : union.firstSum = first.countLabels := by simpa using tracks.firstSum
  have secondSum : union.secondSum = second.countLabels := by simpa using tracks.secondSum
  have firstNamed : first.namedSum ≤ union.mergedSum := by simpa using tracks.firstNamed
  have secondNamed : second.namedSum ≤ union.mergedSum := by simpa using tracks.secondNamed
  have asks := one.asks
  dsimp only
  split
  next some =>
    constructor
    · rw [countLabels_append, Union.countLabels_singleton]
      have bits := @UInt16.toNat_ofNat' (max union.firstSum union.secondSum - union.mergedSum)
      by_cases none : union.mergedSum = 0
      · rw [bits]
        omega
      · omega
    · refine pairwise_append.mpr ⟨?_, pairwise_singleton _ _, fun entry mem _ _ => ?_⟩
      · exact pairwise_of_forall_mem_list fun entry mem _ _ => named entry mem
      · exact named entry mem
  next none =>
    constructor
    · omega
    · exact pairwise_of_forall_mem_list fun entry mem _ _ => named entry mem

end Labels

/-! ## Goals -/

/-- Every part of a slice asks for copies. -/
structure LabelledSlice.Sound (slice : LabelledSlice) : Prop where
  sized : slice.parts.length = slice.type.expectedParts
  asking : ∀ part ∈ slice.parts, part.Asking

theorem LabelledSlice.Sound.getD {slice : LabelledSlice} (h : slice.Sound) {part : Nat}
    (lt : part < slice.type.expectedParts) : (slice.parts.getD part []).Asking := by
  rw [getD_eq_getElem?_getD, getElem?_eq_getElem (h.sized ▸ lt)]
  exact h.asking _ (getElem_mem _)

/-- A goal of the configuration [SPEC goal_config_loader.cc:230-304]. -/
structure GoalDefinition where
  slices : LabelledGoal
  some : slices ≠ []
  sound : ∀ slice ∈ slices, slice.Sound

/-- [SPEC goal_config_loader.cc:220-228] -/
def defaultSlice (goal : GoalId) : LabelledSlice :=
  ⟨SliceType.kStandard, [[(kWildcard, UInt16.ofNat (min 5 goal.toNat))]]⟩

theorem Labels.asking_singleton {label : MediaLabel} {count : UInt16} (some : count ≠ 0) :
    Asking [(label, count)] where
  asks := by
    exact Nat.pos_of_ne_zero fun zero => some (UInt16.toNat_inj.mp zero)
  last := pairwise_singleton _ _

/-- The number of a goal is not zero. -/
theorem sound_defaultSlice {goal : GoalId} (valid : goal ≠ 0) : (defaultSlice goal).Sound := by
  refine ⟨rfl, fun part mem => ?_⟩
  rw [mem_singleton.mp mem]
  refine Labels.asking_singleton fun zero => valid (UInt8.toNat_inj.mp ?_)
  have bits := congrArg UInt16.toNat zero
  show goal.toNat = 0
  simp at bits
  omega

/-! ### Merged goals -/

variable (assignment : LabelledSlice → LabelledSlice → Nat → Nat)

/-- The optimizer gives each part of a slice a part of the slice. -/
def Assigns : Prop :=
  ∀ slice other : LabelledSlice, ∀ part < slice.parts.length,
    assignment slice other part < slice.parts.length

/-- [SPEC chunks.cc:406-414] -/
def mergeDefinitions (definitions : List GoalDefinition) : LabelledGoal :=
  definitions.foldl (fun goal definition => goal.mergeIn assignment definition.slices) []

variable {assignment}

theorem LabelledSlice.Sound.mergeIn (assigns : Assigns assignment) {slice other : LabelledSlice}
    (h : slice.Sound) (otherSound : other.Sound) (eq : slice.type = other.type) :
    (slice.mergeIn assignment other).Sound := by
  refine ⟨length_mapIdx.trans h.sized, fun part mem => ?_⟩
  obtain ⟨i, inside, rfl⟩ := mem_mapIdx.mp mem
  have within := assigns slice other i inside
  rw [h.sized, eq] at within
  exact Labels.asking_makeLabelsUnion (h.asking _ (getElem_mem _)) (otherSound.getD within)

/-- Slices that come into a goal leave it sound. -/
theorem sound_mergeIn (h : Assigns assignment) {goal other : LabelledGoal}
    (sound : ∀ slice ∈ goal, slice.Sound) (otherSound : ∀ slice ∈ other, slice.Sound) :
    ∀ slice ∈ goal.mergeIn assignment other, slice.Sound := by
  induction other generalizing goal with
  | nil => exact sound
  | cons slice other ih =>
    obtain ⟨here, later⟩ := forall_mem_cons.mp otherSound
    exact ih (FlatMap.forall_upsert sound here fun old eq oldSound =>
      oldSound.mergeIn h here eq) later

theorem mergeIn_ne_nil {goal other : LabelledGoal} (some : goal ≠ [] ∨ other ≠ []) :
    goal.mergeIn assignment other ≠ [] := by
  induction other generalizing goal with
  | nil => exact some.resolve_right fun none => none rfl
  | cons slice other ih => exact ih (.inl FlatMap.upsert_ne_nil)

/-- The goals of the files of a chunk ask for copies of every part of every slice they name. -/
theorem sound_mergeDefinitions (h : Assigns assignment) (definitions : List GoalDefinition) :
    ∀ slice ∈ mergeDefinitions assignment definitions, slice.Sound := by
  induction definitions using reverseRecOn with
  | nil => exact fun _ none => absurd none not_mem_nil
  | append_singleton definitions definition ih =>
    unfold mergeDefinitions
    rw [foldl_append]
    exact sound_mergeIn h ih definition.sound

theorem mergeDefinitions_ne_nil {definitions : List GoalDefinition} (some : definitions ≠ []) :
    mergeDefinitions assignment definitions ≠ [] := by
  obtain ⟨prev, last, rfl⟩ := eq_nil_or_concat' definitions |>.resolve_left some
  unfold mergeDefinitions
  rw [foldl_append]
  exact mergeIn_ne_nil (.inr last.some)

end LeilFS.Chunks
