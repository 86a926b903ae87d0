/-
Module: LeilFS.Lib.ListModify
Purpose: Lists with one element changed.
Trusted boundary: none
-/
import Mathlib

namespace List

variable {α : Type*} {l : List α} {f : α → α} {i : Nat} {a : α}

/-- What is in a list with one element changed was there before, or is the changed
element. -/
theorem mem_or_eq_of_mem_modify (mem : a ∈ l.modify i f) :
    a ∈ l ∨ ∃ b, l[i]? = some b ∧ a = f b := by
  obtain ⟨j, found⟩ := List.mem_iff_getElem?.mp mem
  rw [List.getElem?_modify, Option.map_eq_map, Option.map_eq_some_iff] at found
  obtain ⟨b, here, rfl⟩ := found
  by_cases changed : i = j
  · exact .inr ⟨b, changed ▸ here, by simp [changed]⟩
  · exact .inl (by simpa [changed] using List.mem_of_getElem? here)

end List
