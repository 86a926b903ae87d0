/-
Module: LeilFS.Lib.KeyedList
Purpose: Lists whose elements have distinct keys: search, removal and insertion by key.
Trusted boundary: none
-/
import Mathlib

namespace KeyedList

open List

variable {α κ : Type*} {key : α → κ} {xs : List α} {x : α}

/-- Distinct keys: an element is found by its key. -/
theorem find?_key [DecidableEq κ] (nodup : (xs.map key).Nodup) (mem : x ∈ xs) :
    xs.find? (fun y => key y = key x) = some x := by
  have isSome : (xs.find? fun y => decide (key y = key x)).isSome = true :=
    find?_isSome.mpr ⟨x, mem, by simp⟩
  obtain ⟨y, found⟩ := Option.isSome_iff_exists.mp isSome
  have eq : key y = key x := by simpa using find?_some found
  rw [found, inj_on_of_nodup_map nodup (mem_of_find?_eq_some found) mem eq]

/-- Distinct keys: removal by key removes the element. -/
theorem eraseP_key [BEq α] [LawfulBEq α] [DecidableEq κ] (nodup : (xs.map key).Nodup)
    (mem : x ∈ xs) :
    xs.eraseP (fun y => key y = key x) = xs.erase x := by
  induction xs with
  | nil => rfl
  | cons y xs ih =>
    rw [map_cons, nodup_cons] at nodup
    by_cases eq : y = x
    · subst eq
      rw [eraseP_cons_of_pos (by simp), erase_cons_head]
    have later : x ∈ xs := (mem_cons.mp mem).resolve_left fun h => eq h.symm
    have differs : key y ≠ key x := fun h => nodup.1 (h ▸ mem_map_of_mem later)
    rw [eraseP_cons_of_neg (by simpa using differs),
      erase_cons_tail (by simpa using eq), ih nodup.2 later]

theorem nodup_map_erase [BEq α] (nodup : (xs.map key).Nodup) : ((xs.erase x).map key).Nodup :=
  nodup.sublist (erase_sublist.map key)

/-- An insertion at any place adds the element. -/
theorem insertAt_perm (place : Nat) (x : α) (xs : List α) :
    (xs.insertIdx (min place xs.length) x).Perm (x :: xs) :=
  perm_insertIdx x xs (Nat.min_le_right _ _)

theorem nodup_map_insertAt (place : Nat) (nodup : (xs.map key).Nodup) (new : key x ∉ xs.map key) :
    ((xs.insertIdx (min place xs.length) x).map key).Nodup := by
  refine ((insertAt_perm place x xs).map key).nodup_iff.mpr ?_
  rw [map_cons, nodup_cons]
  exact ⟨new, nodup⟩

/-- Removing the first element with one property removes the first one with another
property, when the first one with the weaker property has both. -/
theorem eraseP_eq_erase [BEq α] [LawfulBEq α] {strong weak : α → Bool}
    (implies : ∀ y, strong y = true → weak y = true) (holds : strong x = true)
    (first : xs.find? weak = some x) : xs.eraseP strong = xs.erase x := by
  induction xs with
  | nil => rfl
  | cons y xs ih =>
    cases here : weak y with
    | true =>
      rw [find?_cons_of_pos here] at first
      cases first
      rw [eraseP_cons_of_pos holds, erase_cons_head]
    | false =>
      rw [find?_cons_of_neg (by simp [here])] at first
      have ne : y ≠ x := by
        rintro rfl
        rw [implies y holds] at here
        cases here
      have skipped : ¬ strong y = true := fun h => by
        rw [implies y h] at here
        cases here
      rw [eraseP_cons_of_neg skipped, erase_cons_tail (by simpa using ne), ih first]

end KeyedList
