/-
Module: LeilFS.Lib.Superregular
Purpose: Matrices all of whose square submatrices are regular, as generators of codes that
  survive any losses up to their redundancy: Cauchy matrices, and rows of powers.
Trusted boundary: none
-/
import LeilFS.Lib.GaussJordan

open Polynomial

/-- A vector on some columns that is sent to zero by at least as many rows is zero. -/
def Superregular {F : Type*} [Field F] (m k : ℕ) (p : ℕ → ℕ → F) : Prop :=
  ∀ rows columns : Finset ℕ, rows ⊆ Finset.range m → columns ⊆ Finset.range k →
    columns.card ≤ rows.card → ∀ d : ℕ → F,
      (∀ r ∈ rows, ∑ j ∈ columns, p r j * d j = 0) → ∀ j ∈ columns, d j = 0

namespace Superregular

open Finset Lagrange

variable {F : Type*} [Field F] {m k : ℕ}

/-! ## Cauchy matrices -/

variable {columns : Finset ℕ} {j : ℕ} {d : ℕ → F} {x : ℕ → F} {p : ℕ → ℕ → F}

/-- Reciprocals of differences of distinct elements. -/
theorem cauchy {x y : ℕ → F} (rowsDistinct : Set.InjOn x (Finset.range m))
    (columnsDistinct : Set.InjOn y (Finset.range k)) (apart : ∀ r < m, ∀ j < k, x r ≠ y j) :
    Superregular m k fun r j => (x r - y j)⁻¹ := by
  intro rows columns rowsInside columnsInside enough d zero j mem
  have injective := columnsDistinct.mono (coe_subset.mpr columnsInside)
  -- the combination of the reciprocals is, over the common denominator, a value of this polynomial
  let values (i : ℕ) : F := (nodalWeight columns y i)⁻¹ * d i
  have vanishes : interpolate columns y values = 0 := by
    refine eq_zero_of_degree_lt_of_eval_index_eq_zero rows
      (rowsDistinct.mono (coe_subset.mpr rowsInside)) ?_ fun r row => ?_
    · exact (degree_interpolate_lt values injective).trans_le (by exact_mod_cast enough)
    · have away : ∀ i ∈ columns, x r ≠ y i := fun i column =>
        apart r (mem_range.mp (rowsInside row)) i (mem_range.mp (columnsInside column))
      rw [eval_interpolate_not_at_node values away, ← mul_zero, ← zero r row]
      refine congrArg _ (sum_congr rfl fun i column => ?_)
      have weighted := nodalWeight_ne_zero injective column
      simp only [values]
      field_simp
  have atColumn := eval_interpolate_at_node values injective mem
  rw [vanishes, eval_zero] at atColumn
  exact (mul_eq_zero.mp atColumn.symm).resolve_left
    (inv_ne_zero (nodalWeight_ne_zero injective mem))

/-! ## Rows of powers -/

/-- A combination of rows that is zero at all columns but one gives that coordinate. -/
private theorem eq_zero_of_separated {rows columns : Finset ℕ}
    (zero : ∀ r ∈ rows, ∑ j ∈ columns, p r j * d j = 0) (mem : j ∈ columns)
    (weight : ℕ → F) (elsewhere : ∀ i ∈ columns, i ≠ j → ∑ r ∈ rows, weight r * p r i = 0)
    (ne : ∑ r ∈ rows, weight r * p r j ≠ 0) : d j = 0 := by
  have combined : ∑ i ∈ columns, (∑ r ∈ rows, weight r * p r i) * d i = 0 := by
    calc ∑ i ∈ columns, (∑ r ∈ rows, weight r * p r i) * d i
        = ∑ r ∈ rows, weight r * ∑ i ∈ columns, p r i * d i := by
          simp only [sum_mul, mul_sum, mul_assoc]
          exact sum_comm
      _ = 0 := sum_eq_zero fun r row => by rw [zero r row, mul_zero]
  rw [sum_eq_single j] at combined
  · exact (mul_eq_zero.mp combined).resolve_left ne
  · intro i column other
    rw [elsewhere i column other, zero_mul]
  · exact fun outside => absurd mem outside

/-- Rows whose exponents are evenly spaced, which combine to a polynomial that separates. -/
private theorem eq_zero_of_spaced {first gap : ℕ}
    (zero : ∀ e < columns.card, ∑ j ∈ columns, x j ^ (first + gap * e) * d j = 0)
    (distinct : Set.InjOn (fun j => x j ^ gap) columns) (mem : j ∈ columns)
    (ne : x j ≠ 0) : d j = 0 := by
  set nodes : ℕ → F := fun i => x i ^ gap
  set f := Lagrange.basis columns nodes j
  have lt : f.natDegree < columns.card := by
    rw [natDegree_basis distinct mem]
    exact Nat.sub_lt (card_pos.mpr ⟨j, mem⟩) Nat.one_pos
  have value (i : ℕ) : ∑ e ∈ Finset.range columns.card, f.coeff e * x i ^ (first + gap * e)
      = x i ^ first * f.eval (nodes i) := by
    rw [eval_eq_sum_range' lt, mul_sum]
    refine sum_congr rfl fun e _ => ?_
    rw [pow_add]
    ring
  refine eq_zero_of_separated (p := fun e j => x j ^ (first + gap * e))
    (fun e row => zero e (mem_range.mp row)) mem f.coeff (fun i column other => ?_) ?_
  · rw [value, eval_basis_of_ne other.symm column, mul_zero]
  · rw [value, eval_basis_self distinct mem, mul_one]
    exact pow_ne_zero _ ne

/-- The other two of three columns. -/
private theorem others_of_card_three (mem : j ∈ columns) (three : columns.card = 3) :
    ∃ b c, b ∈ columns ∧ c ∈ columns ∧ j ≠ b ∧ j ≠ c ∧ b ≠ c ∧
      ∀ i ∈ columns, i ≠ j → i = b ∨ i = c := by
  have two : (columns.erase j).card = 2 := by
    rw [card_erase_of_mem mem, three]
  obtain ⟨b, c, ne, rest⟩ := card_eq_two.mp two
  have memberB : b ∈ columns.erase j := by simp [rest]
  have memberC : c ∈ columns.erase j := by simp [rest]
  refine ⟨b, c, mem_of_mem_erase memberB, mem_of_mem_erase memberC,
    (ne_of_mem_erase memberB).symm, (ne_of_mem_erase memberC).symm, ne,
    fun i column other => ?_⟩
  have there : i ∈ columns.erase j := mem_erase.mpr ⟨other, column⟩
  simpa [rest] using there

/-- Three rows on which a combination is a product of two differences and of a factor that is not
zero for three different elements. -/
private theorem eq_zero_of_factor {rows : Finset ℕ}
    (zero : ∀ r ∈ rows, ∑ j ∈ columns, x j ^ r * d j = 0) (three : columns.card = 3)
    (distinct : Set.InjOn x columns) (weight : F → F → ℕ → F) (factor : F → F → F → F)
    (value : ∀ y b c, ∑ r ∈ rows, weight b c r * y ^ r = (y - b) * (y - c) * factor y b c)
    (nonzero : ∀ a ∈ columns, ∀ b ∈ columns, ∀ c ∈ columns, a ≠ b → a ≠ c → b ≠ c →
      factor (x a) (x b) (x c) ≠ 0) (mem : j ∈ columns) : d j = 0 := by
  obtain ⟨b, c, memberB, memberC, notB, notC, ne, others⟩ := others_of_card_three mem three
  refine eq_zero_of_separated zero mem (weight (x b) (x c)) (fun i column other => ?_) ?_
  · rw [value]
    rcases others i column other with rfl | rfl <;> ring
  · rw [value]
    refine mul_ne_zero (mul_ne_zero ?_ ?_) (nonzero j mem b memberB c memberC notB notC ne)
    · exact sub_ne_zero.mpr fun eq => notB (distinct mem memberB eq)
    · exact sub_ne_zero.mpr fun eq => notC (distinct mem memberC eq)

/-- How a set of at most four rows is spaced. -/
private theorem rows_cases : ∀ rows ∈ (Finset.range 4).powerset, rows.Nonempty →
    (∃ first < 4, ∃ gap < 4, (1 < rows.card → 0 < gap) ∧
      (∀ e < rows.card, first + gap * e ∈ rows) ∧ (1 < rows.card → first + gap ∈ rows)) ∨
    rows = {0, 1, 3} ∨ rows = {0, 2, 3} := by
  decide

/-- The first powers of elements, on up to four rows. -/
theorem powers (few : m ≤ 4) (ne : ∀ j < k, x j ≠ 0)
    (distinct : ∀ gap, 0 < gap → gap < m → Set.InjOn (fun j => x j ^ gap) (Finset.range k))
    (sums : m = 4 → ∀ a < k, ∀ b < k, ∀ c < k, a ≠ b → a ≠ c → b ≠ c → x a + x b + x c ≠ 0)
    (products : m = 4 → ∀ a < k, ∀ b < k, ∀ c < k, a ≠ b → a ≠ c → b ≠ c →
      x a * x b + x a * x c + x b * x c ≠ 0) : Superregular m k fun r j => x j ^ r := by
  intro allRows columns allInside columnsInside enough d allZero j mem
  obtain ⟨rows, fewer, eq⟩ := exists_subset_card_eq enough
  have inside {c : ℕ} (column : c ∈ columns) : c < k := mem_range.mp (columnsInside column)
  have bound {r : ℕ} (row : r ∈ rows) : r < m := mem_range.mp (allInside (fewer row))
  have zero : ∀ r ∈ rows, ∑ j ∈ columns, x j ^ r * d j = 0 := fun r row => allZero r (fewer row)
  have atMostFour : rows ∈ (Finset.range 4).powerset :=
    mem_powerset.mpr fun r row => mem_range.mpr ((bound row).trans_le few)
  have some : rows.Nonempty := by
    rw [← card_pos, eq]
    exact card_pos.mpr ⟨j, mem⟩
  have distinctOf (four : 3 ∈ rows) : m = 4 ∧ Set.InjOn x columns := by
    have all : m = 4 := by
      have := bound four
      omega
    refine ⟨all, ?_⟩
    have := (distinct 1 Nat.one_pos (by omega)).mono (coe_subset.mpr columnsInside)
    simpa using this
  rcases rows_cases rows atMostFour some with
    ⟨first, -, gap, -, spaced, members, second⟩ | rfl | rfl
  · refine eq_zero_of_spaced (fun e small => zero _ (members e (eq ▸ small))) ?_ mem
      (ne j (inside mem))
    rcases Nat.lt_or_ge 1 rows.card with several | single
    · have := bound (second several)
      exact (distinct gap (spaced several) (by omega)).mono (coe_subset.mpr columnsInside)
    · have one : columns.card ≤ 1 := eq ▸ single
      intro a memberA b memberB _
      exact card_le_one.mp one a memberA b memberB
  · obtain ⟨all, injective⟩ := distinctOf (by simp)
    -- without the squares, the sum of the three elements decides
    refine eq_zero_of_factor zero (eq.symm.trans rfl) injective
      (fun b c r => if r = 0 then b * c * (b + c)
        else if r = 1 then -(b ^ 2 + b * c + c ^ 2) else 1)
      (fun a b c => a + b + c) (fun y b c => ?_) ?_ mem
    · simp [sum_insert]
      ring
    · exact fun a ma b mb c mc => sums all a (inside ma) b (inside mb) c (inside mc)
  · obtain ⟨all, injective⟩ := distinctOf (by simp)
    -- without the first powers, the sum of the products of two of them
    refine eq_zero_of_factor zero (eq.symm.trans rfl) injective
      (fun b c r => if r = 0 then (b * c) ^ 2 else if r = 2 then b * c - (b + c) ^ 2 else b + c)
      (fun a b c => a * b + a * c + b * c) (fun y b c => ?_) ?_ mem
    · simp [sum_insert]
      ring
    · exact fun a ma b mb c mc => products all a (inside ma) b (inside mb) c (inside mc)

/-! ## Systematic codes -/

/-- Any `k` of the rows of the identity above a superregular matrix are regular. -/
theorem regular_systematic (h : Superregular m k p)
    (form : ℕ → List F) (width : ∀ i < k + m, (form i).length = k)
    (dataRows : ∀ i < k, ∀ c < k, (form i).getD c 0 = if i = c then 1 else 0)
    (parityRows : ∀ r < m, ∀ c < k, (form (k + r)).getD c 0 = p r c)
    {alive : List ℕ} (nodup : alive.Nodup) (inside : ∀ i ∈ alive, i < k + m)
    (eq : alive.length = k) : GaussJordan.Regular k fun j => form (alive.getD j 0) := by
  intro v zero
  have zeroOf : ∀ i ∈ alive, GaussJordan.dot (form i) v = 0 := by
    intro i mem
    obtain ⟨j, bound, rfl⟩ := List.getElem_of_mem mem
    have := zero j (eq ▸ bound)
    simpa [List.getElem?_eq_getElem bound] using this
  let columns := (Finset.range k).filter (· ∉ alive)
  let rows := (Finset.range m).filter (k + · ∈ alive)
  -- a surviving data part fixes its coordinate
  have known : ∀ c < k, c ∈ alive → v c = 0 := by
    intro c small mem
    have := zeroOf c mem
    rwa [GaussJordan.dot_of_unit (j := c) (by rw [width c (by omega)]; exact small)] at this
    intro e within
    exact dataRows c small e (width c (by omega) ▸ within)
  have counted : columns.card = rows.card := by
    have survivors : alive.toFinset =
        (Finset.range k).filter (· ∈ alive) ∪ rows.image (k + ·) := by
      ext i
      simp only [List.mem_toFinset, mem_union, mem_filter, mem_range, mem_image, rows]
      constructor
      · intro mem
        have := inside i mem
        rcases Nat.lt_or_ge i k with small | large
        · exact .inl ⟨small, mem⟩
        · refine .inr ⟨i - k, ⟨by omega, ?_⟩, by omega⟩
          rwa [Nat.add_sub_cancel' large]
      · rintro (⟨-, mem⟩ | ⟨r, ⟨-, mem⟩, rfl⟩) <;> exact mem
    have apart : Disjoint ((Finset.range k).filter (· ∈ alive)) (rows.image (k + ·)) := by
      refine disjoint_left.mpr fun i left right => ?_
      have small := mem_range.mp (mem_filter.mp left).1
      obtain ⟨r, -, rfl⟩ := mem_image.mp right
      omega
    have total : alive.toFinset.card = k := by
      rw [List.toFinset_card_of_nodup nodup, eq]
    rw [survivors, card_union_of_disjoint apart,
      card_image_of_injective _ (add_right_injective k)] at total
    have split := card_filter_add_card_filter_not (s := Finset.range k) (· ∈ alive)
    rw [card_range] at split
    change ((Finset.range k).filter (· ∉ alive)).card = _
    omega
  have unknown : ∀ c ∈ columns, v c = 0 := by
    refine h rows columns (filter_subset _ _) (filter_subset _ _)
      counted.le v fun r row => ?_
    obtain ⟨small, mem⟩ := mem_filter.mp row
    have bound := mem_range.mp small
    have zeroAt := zeroOf (k + r) mem
    unfold GaussJordan.dot at zeroAt
    rw [width (k + r) (by omega)] at zeroAt
    rw [← zeroAt]
    refine (sum_subset (filter_subset _ _) fun c small known' => ?_).trans ?_
    · have survives : c ∈ alive := by
        by_contra lost
        exact known' (mem_filter.mpr ⟨small, lost⟩)
      rw [known c (mem_range.mp small) survives, mul_zero]
    · refine sum_congr rfl fun c within => ?_
      rw [parityRows r bound c (mem_range.mp within)]
  intro c small
  by_cases mem : c ∈ alive
  · exact known c small mem
  · exact unknown c (mem_filter.mpr ⟨mem_range.mpr small, mem⟩)

end Superregular
