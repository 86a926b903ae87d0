/-
Module: LeilFS.Lib.FlatMap
Purpose: Maps kept as lists in the order of their keys: search, and change of the value of
  a key that may be new.
Trusted boundary: none
-/
import LeilFS.Lib.KeyedList

namespace FlatMap

open List

variable {α κ : Type*} [LinearOrder κ] (key : α → κ)

/-- The element with a key. -/
def find (k : κ) (xs : List α) : Option α :=
  xs.find? fun x => key x = k

/-- The element with a key is changed, or comes in at its place. -/
def upsert (k : κ) (new : α) (change : α → α) : List α → List α
  | [] => [new]
  | x :: xs =>
      if key x < k then x :: upsert k new change xs
      else if key x = k then change x :: xs
      else new :: x :: xs

/-- The element with a key is changed, if there is one. -/
def modify (k : κ) (change : α → α) : List α → List α
  | [] => []
  | x :: xs => if key x = k then change x :: xs else x :: modify k change xs

/-- The elements are in the order of their keys. -/
def Ordered (xs : List α) : Prop :=
  xs.Pairwise (key · < key ·)

variable {key} {k other : κ} {new : α} {change : α → α} {xs : List α}

theorem Ordered.nodup (h : Ordered key xs) : (xs.map key).Nodup :=
  pairwise_map.mpr (h.imp fun {_ _} prev => ne_of_lt prev)

variable {x : α}

theorem Ordered.find_eq_some_iff (h : Ordered key xs) :
    find key k xs = some x ↔ x ∈ xs ∧ key x = k := by
  constructor
  · intro found
    have eq := find?_some found
    exact ⟨mem_of_find?_eq_some found, of_decide_eq_true eq⟩
  · rintro ⟨mem, rfl⟩
    exact KeyedList.find?_key h.nodup mem

theorem find_of_forall_lt (after : ∀ x ∈ xs, k < key x) : find key k xs = none :=
  find?_eq_none.mpr fun x mem eq => absurd (of_decide_eq_true eq) (ne_of_gt (after x mem))

/-- Nothing has a key below the first one. -/
theorem Ordered.find_of_lt (h : Ordered key (x :: xs)) (after : k < key x) :
    find key k (x :: xs) = none := by
  refine find_of_forall_lt fun y mem => ?_
  rcases mem_cons.mp mem with rfl | there
  · exact after
  · exact after.trans ((pairwise_cons.mp h).1 y there)

theorem find_cons_of_ne (ne : key x ≠ k) : find key k (x :: xs) = find key k xs :=
  find?_cons_of_neg (by simpa using ne)

theorem find_cons_self (eq : key x = k) : find key k (x :: xs) = some x :=
  find?_cons_of_pos (by simpa using eq)

/-- What holds of the elements and of the new one, and is kept by the change, still holds. -/
theorem forall_upsert {P : α → Prop} (all : ∀ x ∈ xs, P x) (isNew : P new)
    (kept : ∀ x, key x = k → P x → P (change x)) : ∀ x ∈ upsert key k new change xs, P x := by
  induction xs with
  | nil => simpa [upsert] using isNew
  | cons y xs ih =>
    have later : ∀ x ∈ xs, P x := fun x mem => all x (mem_cons_of_mem _ mem)
    unfold upsert
    split
    · exact forall_mem_cons.mpr ⟨all y mem_cons_self, ih later⟩
    · split
      next eq => exact forall_mem_cons.mpr ⟨kept y eq (all y mem_cons_self), later⟩
      · exact forall_mem_cons.mpr ⟨isNew, all⟩

theorem upsert_ne_nil : upsert key k new change xs ≠ [] := by
  cases xs with
  | nil => exact cons_ne_nil _ _
  | cons x xs =>
    unfold upsert
    split
    · exact cons_ne_nil _ _
    · split <;> exact cons_ne_nil _ _

section Keys

variable (newKey : key new = k) (keeps : ∀ x, key (change x) = key x)

include newKey keeps

theorem mem_keys_upsert :
    other ∈ (upsert key k new change xs).map key ↔ other = k ∨ other ∈ xs.map key := by
  induction xs with
  | nil => simp [upsert, newKey]
  | cons x xs ih =>
    unfold upsert
    split
    · rw [map_cons, map_cons, mem_cons, mem_cons, ih]
      exact or_left_comm
    · split
      next eq => simp [keeps, eq]
      · rw [map_cons, mem_cons, newKey]

theorem Ordered.upsert (h : Ordered key xs) : Ordered key (upsert key k new change xs) := by
  induction xs with
  | nil => exact pairwise_singleton _ _
  | cons x xs ih =>
    obtain ⟨prev, later⟩ := pairwise_cons.mp h
    unfold FlatMap.upsert
    split
    next less =>
      refine pairwise_cons.mpr ⟨fun y mem => ?_, ih later⟩
      rcases (mem_keys_upsert newKey keeps).mp (mem_map_of_mem mem) with eq | there
      · rw [eq]
        exact less
      · obtain ⟨old, oldMember, eq⟩ := mem_map.mp there
        exact eq ▸ prev old oldMember
    next notLess =>
      split
      · exact pairwise_cons.mpr ⟨fun y mem => (keeps x).symm ▸ prev y mem, later⟩
      next ne =>
        have after : k < key x := Ne.lt_of_le' ne (not_lt.mp notLess)
        refine pairwise_cons.mpr ⟨fun y mem => ?_, h⟩
        rcases mem_cons.mp mem with rfl | there
        · exact newKey.symm ▸ after
        · exact newKey.symm ▸ after.trans (prev y there)

/-- The key has the changed element, or the new one, and the others have what they had. -/
theorem Ordered.find_upsert (h : Ordered key xs) :
    find key other (FlatMap.upsert key k new change xs) =
      if k = other then some ((find key other xs).elim new change) else find key other xs := by
  induction xs with
  | nil =>
    split
    next same => exact find_cons_self (newKey.trans same)
    next ne => exact find_cons_of_ne (newKey.symm ▸ ne)
  | cons x xs ih =>
    obtain ⟨prev, later⟩ := pairwise_cons.mp h
    unfold FlatMap.upsert
    split
    next less =>
      by_cases same : key x = other
      · rw [find_cons_self same, if_neg (same ▸ ne_of_gt less), find_cons_self same]
      · rw [find_cons_of_ne same, find_cons_of_ne same, ih later]
    next notLess =>
      split
      next same =>
        by_cases isOther : k = other
        · rw [if_pos isOther, find_cons_self (same.trans isOther),
            find_cons_self ((keeps x).trans (same.trans isOther))]
          rfl
        · have apart : key x ≠ other := fun eq => isOther (same.symm.trans eq)
          rw [if_neg isOther, find_cons_of_ne ((keeps x).symm ▸ apart), find_cons_of_ne apart]
      next ne =>
        have after : k < key x := Ne.lt_of_le' ne (not_lt.mp notLess)
        by_cases isOther : k = other
        · rw [if_pos isOther, h.find_of_lt (isOther ▸ after), find_cons_self (newKey.trans isOther)]
          rfl
        · rw [if_neg isOther, find_cons_of_ne (newKey.symm ▸ isOther)]

end Keys

/-- The sum changes at one key. -/
theorem Ordered.sum_upsert (h : Ordered key xs) (weight : α → Nat) :
    ((FlatMap.upsert key k new change xs).map weight).sum + (find key k xs).elim 0 weight =
      (xs.map weight).sum + weight ((find key k xs).elim new change) := by
  induction xs with
  | nil => exact Nat.add_comm _ _
  | cons x xs ih =>
    obtain ⟨prev, later⟩ := pairwise_cons.mp h
    unfold FlatMap.upsert
    split
    next less =>
      have rest := ih later
      rw [find_cons_of_ne (ne_of_lt less)]
      simp only [map_cons, sum_cons]
      omega
    next notLess =>
      split
      next eq =>
        rw [find_cons_self eq]
        simp only [map_cons, sum_cons, Option.elim_some]
        omega
      next ne =>
        have after : k < key x := Ne.lt_of_le' ne (not_lt.mp notLess)
        rw [h.find_of_lt after]
        simp only [map_cons, sum_cons, Option.elim_none]
        omega

theorem sum_modify (found : find key k xs = some x) (weight : α → Nat) :
    ((modify key k change xs).map weight).sum + weight x =
      (xs.map weight).sum + weight (change x) := by
  induction xs with
  | nil => cases found
  | cons y xs ih =>
    unfold modify
    split
    next eq =>
      rw [find_cons_self eq] at found
      cases found
      simp only [map_cons, sum_cons]
      omega
    next ne =>
      rw [find_cons_of_ne ne] at found
      have rest := ih found
      simp only [map_cons, sum_cons]
      omega

end FlatMap
