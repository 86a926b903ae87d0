/-
Module: LeilFS.Lib.SortedSeq
Purpose: Searches in and merges of sequences that are sorted by a key.
Trusted boundary: none
-/
import Mathlib

namespace SortedSeq

open List

/-!
Binary searches over a partitioned sequence (`std::lower_bound`,
`std::upper_bound`) are specified by the position of the first element that
fails a predicate.  `partitionPoint` is that position.  A pair of such positions
cuts a sequence into three consecutive parts, which is how an algorithm that
works between two iterators sees its container.
-/

variable {α : Type*}

/-- Position of the first element of `xs` that does not satisfy `before`, and
the length of `xs` when every element does. -/
def partitionPoint (before : α → Bool) (xs : List α) : Nat :=
  (xs.takeWhile before).length

/-- One position back, unless the position is already the first one. -/
def stepBack (position : Nat) : Nat := position - 1

theorem partitionPoint_le_length (before : α → Bool) (xs : List α) :
    partitionPoint before xs ≤ xs.length :=
  xs.takeWhile_prefix before |>.length_le

theorem take_partitionPoint (before : α → Bool) (xs : List α) :
    xs.take (partitionPoint before xs) = xs.takeWhile before := by
  induction xs with
  | nil => rfl
  | cons x xs ih =>
    by_cases hit : before x
    · simpa [partitionPoint, hit] using ih
    · simp [partitionPoint, hit]

theorem drop_partitionPoint (before : α → Bool) (xs : List α) :
    xs.drop (partitionPoint before xs) = xs.dropWhile before := by
  induction xs with
  | nil => rfl
  | cons x xs ih =>
    by_cases hit : before x
    · simpa [partitionPoint, hit] using ih
    · simp [partitionPoint, hit]

variable {before : α → Bool} {xs : List α}

theorem partitionPoint_of_all
    (all : ∀ x ∈ xs, before x = true) : partitionPoint before xs = xs.length := by
  rw [partitionPoint, takeWhile_eq_self_iff.mpr all]

theorem partitionPoint_of_none
    (none : ∀ x ∈ xs, before x = false) : partitionPoint before xs = 0 := by
  cases xs with
  | nil => rfl
  | cons x xs => simp [partitionPoint, none x (by simp)]

/-- Everything in front of the partition point satisfies the predicate. -/
theorem before_of_mem_take {x : α}
    (mem : x ∈ xs.take (partitionPoint before xs)) : before x = true := by
  rw [take_partitionPoint] at mem
  exact mem_takeWhile_imp mem

/-- In a partitioned sequence nothing from the partition point on satisfies the
predicate. -/
theorem not_before_of_mem_drop {x : α}
    (partitioned : xs.Pairwise (fun a b => before b = true → before a = true))
    (mem : x ∈ xs.drop (partitionPoint before xs)) : before x = false := by
  rw [drop_partitionPoint] at mem
  induction xs with
  | nil => simp at mem
  | cons y ys ih =>
    rw [pairwise_cons] at partitioned
    by_cases hit : before y
    · rw [dropWhile_cons_of_pos hit] at mem
      exact ih partitioned.2 mem
    rw [dropWhile_cons_of_neg hit] at mem
    rcases mem_cons.mp mem with rfl | later
    · simpa using hit
    · by_contra pos
      exact hit (partitioned.1 x later (by simpa using pos))

/-- An element that lies in front of the partition point even after a step back
has a later element that still satisfies the predicate. -/
theorem exists_later_of_mem_take_stepBack {R : α → α → Prop} (pairwise : xs.Pairwise R) {x : α}
    (mem : x ∈ xs.take (stepBack (partitionPoint before xs))) :
    ∃ y ∈ xs, before y = true ∧ R x y := by
  have inside := partitionPoint_le_length before xs
  have hit : ∀ y ∈ xs.take (partitionPoint before xs), before y = true :=
    fun y => before_of_mem_take
  generalize partitionPoint before xs = position at mem inside hit
  cases position with
  | zero => simp [stepBack] at mem
  | succ position =>
    have last : xs.take (position + 1) = xs.take position ++ [xs[position]] :=
      take_succ_eq_append_getElem inside
    have takenPairwise := pairwise.sublist (take_sublist (position + 1) xs)
    rw [last] at hit takenPairwise
    have final := mem_append_right (xs.take position) (mem_singleton_self xs[position])
    refine ⟨xs[position], getElem_mem _, hit _ final, ?_⟩
    exact (pairwise_append.mp takenPairwise).2.2 x mem _ (mem_singleton_self _)

/-- A sequence cut at two positions. -/
structure Window (α : Type*) where
  front : List α
  middle : List α
  back : List α

/-- Cut `xs` at `first` and `last`.  Crossing positions leave nothing in the
middle. -/
def window (xs : List α) (first last : Nat) : Window α :=
  { front := xs.take first
    middle := (xs.take last).drop first
    back := xs.drop (max first last) }

/-- The three parts of a window are the sequence it was cut from. -/
theorem window_append (xs : List α) (first last : Nat) :
    (window xs first last).front ++ (window xs first last).middle ++
      (window xs first last).back = xs := by
  rcases Nat.le_total first last with ordered | crossed
  · have middle : (xs.take last).drop first ++ xs.drop last = xs.drop first := by
      have rest : xs.drop last = (xs.drop first).drop (last - first) := by
        rw [drop_drop, Nat.add_sub_cancel' ordered]
      rw [drop_take, rest, take_append_drop]
    simp only [window, Nat.max_eq_right ordered, append_assoc, middle]
    exact take_append_drop first xs
  · have empty : (xs.take last).drop first = [] := by
      simp; omega
    simp [window, Nat.max_eq_left crossed, empty]

/-!
`std::merge` followed by `std::unique` computes the union of two sets that are
kept as sorted vectors.  Elements are compared by a key; where two elements have
the same key the one of the first sequence is kept.
-/

/-- Walk through the second sequence of a merge until the head `x` of the first
one is due, then go on with `next`. -/
def mergeHead (lt : α → α → Bool) (x : α) (next : List α → List α) :
    List α → List α
  | [] => x :: next []
  | y :: ys =>
      if lt y x then y :: mergeHead lt x next ys else x :: next (y :: ys)

/-- Stable merge of two sorted sequences. -/
def merge (lt : α → α → Bool) : List α → List α → List α
  | [], ys => ys
  | x :: xs, ys => mergeHead lt x (merge lt xs) ys

/-- Keep the first element of every group of consecutive equal elements. -/
def unique (same : α → α → Bool) (xs : List α) : List α :=
  xs.destutter (fun a b => ¬ same a b = true)

/-- Search for the candidate and erase the element found there, if it is the
candidate. -/
def eraseFound (lt same : α → α → Bool) (candidate : α) (xs : List α) : List α :=
  let position := partitionPoint (fun x => lt x candidate) xs
  match xs[position]? with
  | some found => if same found candidate then xs.eraseIdx position else xs
  | none => xs

theorem merge_eq_listMerge (lt : α → α → Bool) (xs ys : List α) :
    merge lt xs ys = xs.merge ys (fun a b => !lt b a) := by
  induction xs generalizing ys with
  | nil => simp [merge]
  | cons x xs ihxs =>
    rw [merge]
    induction ys with
    | nil => simp [mergeHead, ihxs]
    | cons y ys ihys =>
      by_cases old : lt y x
      · simp [mergeHead, old, ihys]
      · simp [mergeHead, old, ihxs]

section Keyed

variable {κ : Type*} [LinearOrder κ] {key : α → κ}
variable {lt same : α → α → Bool}

private theorem map_key_merge (ltKey : ∀ a b, lt a b = true ↔ key a < key b) (xs ys : List α) :
    (merge lt xs ys).map key = (xs.map key).merge (ys.map key) (fun a b => decide (a ≤ b)) := by
  rw [merge_eq_listMerge]
  apply map_merge
  intro a _ b _
  rw [Bool.eq_iff_iff, decide_eq_true_iff, ← not_lt, ← ltKey]
  simp

private theorem pairwise_le_merge (xs ys : List κ)
    (sortedLeft : xs.Pairwise (· < ·)) (sortedRight : ys.Pairwise (· < ·)) :
    (xs.merge ys (fun a b => decide (a ≤ b))).Pairwise (· ≤ ·) := by
  have transitive (a b c : κ) (ab : decide (a ≤ b) = true)
      (bc : decide (b ≤ c) = true) : decide (a ≤ c) = true := by
    simp only [decide_eq_true_eq] at *
    exact le_trans ab bc
  have total (a b : κ) : (decide (a ≤ b) || decide (b ≤ a)) = true := by
    simpa using le_total a b
  have merged := pairwise_merge transitive total xs ys
    (sortedLeft.imp fun h => by simpa using le_of_lt h)
    (sortedRight.imp fun h => by simpa using le_of_lt h)
  exact merged.imp fun h => by simpa using h

variable {xs ys : List α}

section

variable (ltKey : ∀ a b, lt a b = true ↔ key a < key b)
  (sameKey : ∀ a b, same a b = true ↔ key a = key b)
include ltKey sameKey

section Merge

variable (sortedLeft : (xs.map key).Pairwise (· < ·)) (sortedRight : (ys.map key).Pairwise (· < ·))
include sortedLeft sortedRight

/-- The keys of a merged and thinned sequence are the sorted union of the keys. -/
theorem map_key_unique_merge : (unique same (merge lt xs ys)).map key =
      ((xs.map key).merge (ys.map key) (fun a b => decide (a ≤ b))).dedup := by
  have keys : (unique same (merge lt xs ys)).map key =
      ((merge lt xs ys).map key).destutter (fun a b => a ≠ b) := by
    apply map_destutter
    intro a _ b _
    rw [sameKey]
  rw [keys, map_key_merge ltKey]
  exact (pairwise_le_merge _ _ sortedLeft sortedRight).destutter_eq_dedup

theorem mem_key_unique_merge (k : κ) :
    k ∈ (unique same (merge lt xs ys)).map key ↔ k ∈ xs.map key ∨ k ∈ ys.map key := by
  rw [map_key_unique_merge ltKey sameKey sortedLeft sortedRight, mem_dedup, mem_merge]

theorem pairwise_key_unique_merge : ((unique same (merge lt xs ys)).map key).Pairwise (· < ·) := by
  rw [map_key_unique_merge ltKey sameKey sortedLeft sortedRight]
  have sorted := (pairwise_le_merge _ _ sortedLeft sortedRight).sublist (dedup_sublist _)
  exact sorted.imp₂ (fun _ _ le ne => lt_of_le_of_ne le ne) (nodup_dedup _)

end Merge

/-- On a sorted sequence the search finds the candidate's key whenever it is
there, so exactly the other keys are left. -/
theorem map_key_eraseFound (candidate : α) (sorted : (xs.map key).Pairwise (· < ·)) :
    (eraseFound lt same candidate xs).map key =
      (xs.map key).filter (fun k => decide (k ≠ key candidate)) := by
  induction xs with
  | nil => rfl
  | cons x xs ih =>
    rw [map_cons, pairwise_cons] at sorted
    have above : ∀ k ∈ xs.map key, key candidate ≤ key x →
        decide (k ≠ key candidate) = true := fun k mem le => by
      simpa using ne_of_gt (lt_of_le_of_lt le (sorted.1 k mem))
    by_cases old : lt x candidate
    · have skip : eraseFound lt same candidate (x :: xs) =
          x :: eraseFound lt same candidate xs := by
        simp only [eraseFound, partitionPoint, takeWhile_cons, old,
          if_true, length_cons, getElem?_cons_succ]
        split <;> [split; skip] <;> rfl
      have ne : key x ≠ key candidate := ne_of_lt ((ltKey _ _).mp old)
      rw [skip, map_cons, map_cons, ih sorted.2, filter_cons_of_pos (by simpa using ne)]
    have le : key candidate ≤ key x := by
      rw [← not_lt, ← ltKey]
      exact old
    have found : eraseFound lt same candidate (x :: xs) =
        if same x candidate then xs else x :: xs := by
      simp [eraseFound, partitionPoint, old]
    have rest : (xs.map key).filter (fun k => decide (k ≠ key candidate)) =
        xs.map key :=
      filter_eq_self.mpr fun k mem => above k mem le
    rw [found, map_cons]
    by_cases hit : same x candidate
    · rw [if_pos hit, filter_cons_of_neg (by simpa using (sameKey _ _).mp hit), rest]
    · have ne : key x ≠ key candidate := fun equal =>
        hit ((sameKey _ _).mpr equal)
      rw [if_neg hit, map_cons, filter_cons_of_pos (by simpa using ne), rest]

end

end Keyed

/-!
None of these algorithms looks at more of an element than its comparisons do: they
commute with every map that keeps the comparisons.
-/

section Map

variable {β : Type*} (f : α → β)

theorem partitionPoint_map (before : β → Bool) (xs : List α) :
    partitionPoint before (xs.map f) = partitionPoint (fun x => before (f x)) xs := by
  rw [partitionPoint, takeWhile_map, length_map]
  rfl

theorem window_map (xs : List α) (first last : Nat) : window (xs.map f) first last =
      { front := (window xs first last).front.map f
        middle := (window xs first last).middle.map f
        back := (window xs first last).back.map f } := by
  simp [window]

variable {lt : α → α → Bool} {lt' : β → β → Bool}
variable {same : α → α → Bool} {same' : β → β → Bool}

theorem merge_map (keepsLt : ∀ a b, lt' (f a) (f b) = lt a b) (xs ys : List α) :
    merge lt' (xs.map f) (ys.map f) = (merge lt xs ys).map f := by
  induction xs generalizing ys with
  | nil => rfl
  | cons x xs ihxs =>
    simp only [map_cons, merge]
    induction ys with
    | nil => simpa [mergeHead] using ihxs []
    | cons y ys ihys =>
      by_cases old : lt y x
      · simp [mergeHead, keepsLt, old, ihys]
      · simpa [mergeHead, keepsLt, old] using ihxs (y :: ys)

theorem unique_map (keepsSame : ∀ a b, same' (f a) (f b) = same a b) (xs : List α) :
    unique same' (xs.map f) = (unique same xs).map f := by
  symm
  apply map_destutter
  intro a _ b _
  rw [keepsSame]

theorem eraseFound_map (keepsLt : ∀ a b, lt' (f a) (f b) = lt a b)
    (keepsSame : ∀ a b, same' (f a) (f b) = same a b) (cand : α) (xs : List α) :
    eraseFound lt' same' (f cand) (xs.map f) = (eraseFound lt same cand xs).map f := by
  simp only [eraseFound, partitionPoint_map, keepsLt, getElem?_map]
  cases xs[partitionPoint (fun x => lt x cand) xs]? with
  | none => rfl
  | some found =>
    simp only [Option.map_some, keepsSame]
    split
    · simp [eraseIdx_eq_take_drop_succ]
    · rfl

end Map

end SortedSeq
