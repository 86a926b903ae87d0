/-
Module: LeilFS.Lib.FlatMemory
Purpose: A memory of cells by address: overwriting a region, what it leaves alone, and loops
  that fill a region block by block.
Trusted boundary: none
-/
import Mathlib

namespace FlatMemory

open List

variable {β : Type*}

/-- The cells of a region get new values. -/
def overwrite (mem : ℕ → β) (dst n : ℕ) (value : ℕ → β) : ℕ → β :=
  fun a => if dst ≤ a ∧ a < dst + n then value (a - dst) else mem a

/-- The address is not in the region. -/
def Outside (dst n a : ℕ) : Prop :=
  a < dst ∨ dst + n ≤ a

variable {mem : ℕ → β}

theorem overwrite_add {dst n i : ℕ} {value : ℕ → β} (lt : i < n) :
    overwrite mem dst n value (dst + i) = value i := by
  unfold overwrite
  rw [if_pos ⟨Nat.le_add_right dst i, by omega⟩, Nat.add_sub_cancel_left]

theorem overwrite_of_outside {dst n a : ℕ} {value : ℕ → β}
    (h : Outside dst n a) : overwrite mem dst n value a = mem a := by
  unfold overwrite
  rw [if_neg]
  rcases h with prev | after <;> omega

theorem overwrite_congr {dst n : ℕ} {value other : ℕ → β} (eq : ∀ i < n, value i = other i) :
    overwrite mem dst n value = overwrite mem dst n other := by
  funext a
  unfold overwrite
  split
  case isTrue inside => exact eq _ (by omega)
  case isFalse => rfl

/-- A region is overwritten twice: the second values stay. -/
theorem overwrite_overwrite {dst n : ℕ} {first second : ℕ → β} :
    overwrite (overwrite mem dst n first) dst n second = overwrite mem dst n second := by
  funext a
  unfold overwrite
  split <;> rfl

/-- An address inside a region, by its block and its place there. -/
theorem outside_block_of_ne (dst : ℕ) {size i j o : ℕ} (ne : i ≠ j) (place : o < size) :
    Outside (dst + i * size) size (dst + j * size + o) := by
  rcases Nat.lt_or_gt_of_ne ne with prev | after
  · right
    calc dst + i * size + size = dst + (i + 1) * size := by ring
      _ ≤ dst + j * size := Nat.add_le_add_left (Nat.mul_le_mul_right size prev) dst
      _ ≤ dst + j * size + o := Nat.le_add_right _ o
  · left
    calc dst + j * size + o < dst + j * size + size := Nat.add_lt_add_left place _
      _ = dst + (j + 1) * size := by ring
      _ ≤ dst + i * size := Nat.add_le_add_left (Nat.mul_le_mul_right size after) dst

theorem outside_block_of_outside {dst size n i a : ℕ} (lt : i < n)
    (h : Outside dst (n * size) a) : Outside (dst + i * size) size a := by
  have le : (i + 1) * size ≤ n * size := Nat.mul_le_mul_right size lt
  rw [Nat.add_mul] at le
  rcases h with prev | after
  · exact .inl (by omega)
  · exact .inr (by omega)

theorem Outside.mono {dst n larger a : ℕ} (h : Outside dst larger a) (le : n ≤ larger) :
    Outside dst n a := by
  rcases h with prev | after
  · exact .inl prev
  · exact .inr (by omega)

/-- Writes to places of one size, each place at most once. -/
theorem foldl_places {ι : Type*} {items : List ι} {place : ι → ℕ} (value : ι → ℕ → β)
    (dst size : ℕ) (nodup : (items.map place).Nodup) (mem : ℕ → β) : (∀ x ∈ items, ∀ o < size,
      items.foldl (fun mem x => overwrite mem (dst + place x * size) size (value x)) mem
        (dst + place x * size + o) = value x o) ∧ ∀ j, j ∉ items.map place → ∀ o < size,
        items.foldl (fun mem x => overwrite mem (dst + place x * size) size (value x)) mem
          (dst + j * size + o) = mem (dst + j * size + o) := by
  induction items generalizing mem with
  | nil => exact ⟨fun x member => absurd member not_mem_nil, fun _ _ _ _ => rfl⟩
  | cons first rest ih =>
    rw [map_cons, nodup_cons] at nodup
    obtain ⟨written, kept⟩ := ih nodup.2
      (overwrite mem (dst + place first * size) size (value first))
    refine ⟨fun x member o inside => ?_, fun j absent o inside => ?_⟩
    · rw [foldl_cons]
      rcases mem_cons.mp member with rfl | later
      · rw [kept _ nodup.1 o inside, overwrite_add inside]
      · exact written x later o inside
    · rw [map_cons, mem_cons, not_or] at absent
      rw [foldl_cons, kept j absent.2 o inside,
        overwrite_of_outside (outside_block_of_ne dst (Ne.symm absent.1) inside)]

/-- A loop that fills a region block by block. The values of a block may depend on the memory
that the blocks before it have not touched. -/
theorem foldl_blocks {σ : Type*} (memory : σ → ℕ → β) (I : σ → Prop) {step : σ → ℕ → σ}
    {dst size n : ℕ} (value : ℕ → ℕ → β) {start : σ} (fills : ∀ s, ∀ i < n, I s →
      (∀ a, Outside dst (i * size) a → memory s a = memory start a) →
      I (step s i) ∧ memory (step s i) = overwrite (memory s) (dst + i * size) size (value i))
    (initially : I start) : (∀ i < n, ∀ o < size,
        memory ((List.range n).foldl step start) (dst + i * size + o) = value i o) ∧
      ∀ a, Outside dst (n * size) a →
        memory ((List.range n).foldl step start) a = memory start a := by
  -- after some blocks: those are filled, and everything else is as it was
  have filled : ∀ done ≤ n, I ((List.range done).foldl step start) ∧
      (∀ i < done, ∀ o < size,
        memory ((List.range done).foldl step start) (dst + i * size + o) = value i o) ∧
      ∀ a, Outside dst (done * size) a →
        memory ((List.range done).foldl step start) a = memory start a := by
    intro done
    induction done with
    | zero =>
      intro _
      exact ⟨initially, fun i none => absurd none (Nat.not_lt_zero i), fun _ _ => rfl⟩
    | succ done ih =>
      intro bound
      obtain ⟨holds, blocks, frame⟩ := ih (by omega)
      obtain ⟨stillHolds, written⟩ := fills _ done bound holds frame
      rw [range_succ, foldl_append]
      refine ⟨stillHolds, fun i prev o place => ?_, fun a outside => ?_⟩
      · rw [foldl_cons, foldl_nil, written]
        rcases Nat.lt_succ_iff_lt_or_eq.mp prev with old | rfl
        · rw [overwrite_of_outside (outside_block_of_ne dst (Nat.ne_of_gt old) place)]
          exact blocks i old o place
        · exact overwrite_add place
      · rw [foldl_cons, foldl_nil, written,
          overwrite_of_outside (outside_block_of_outside (Nat.lt_succ_self done) outside)]
        exact frame a (outside.mono (Nat.mul_le_mul_right size (Nat.le_succ done)))
  obtain ⟨-, blocks, frame⟩ := filled n le_rfl
  exact ⟨blocks, frame⟩

/-- The same for a loop that has nothing but the memory. -/
theorem foldl_fill {step : (ℕ → β) → ℕ → ℕ → β} {dst size n : ℕ} (value : ℕ → ℕ → β)
    (fills : ∀ now, ∀ i < n, (∀ a, Outside dst (i * size) a → now a = mem a) →
      step now i = overwrite now (dst + i * size) size (value i)) :
    (∀ i < n, ∀ o < size, (List.range n).foldl step mem (dst + i * size + o) = value i o) ∧
      ∀ a, Outside dst (n * size) a → (List.range n).foldl step mem a = mem a :=
  foldl_blocks (fun now => now) (fun _ => True) value
    (fun now i inside _ frame => ⟨trivial, fills now i inside frame⟩) trivial

end FlatMemory
