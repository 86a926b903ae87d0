/-
Module: LeilFS.Lib.GaussJordan
Purpose: Inversion of a square matrix by Gauss-Jordan elimination with row swaps, on rows
  stored as lists over a field.
Trusted boundary: none
-/
import Mathlib

namespace GaussJordan

open Equiv List

variable {F : Type*} [Field F]

/-! ## Rows as linear forms -/

/-- The value of a row of coefficients at a vector. -/
def dot (a : List F) (v : ℕ → F) : F :=
  ∑ i ∈ Finset.range a.length, a.getD i 0 * v i

theorem dot_congr {a : List F} {v w : ℕ → F} (eq : ∀ i < a.length, v i = w i) :
    dot a v = dot a w := by
  refine Finset.sum_congr rfl fun i inside => ?_
  rw [eq i (Finset.mem_range.mp inside)]

theorem dot_map_mul (t : F) (a : List F) (v : ℕ → F) : dot (a.map (· * t)) v = dot a v * t := by
  unfold dot
  rw [length_map, Finset.sum_mul]
  refine Finset.sum_congr rfl fun i inside => ?_
  have bound := Finset.mem_range.mp inside
  simp only [getD_eq_getElem?_getD, getElem?_map, getElem?_eq_getElem bound,
    Option.map_some, Option.getD_some]
  ring

theorem getD_zipWith_sub {t : F} {a b : List F} (eq : a.length = b.length) (c : ℕ) :
    (zipWith (fun x y => x - t * y) a b).getD c 0 = a.getD c 0 - t * b.getD c 0 := by
  rcases Nat.lt_or_ge c a.length with inside | outside
  · have inside' : c < b.length := eq ▸ inside
    simp [getElem?_zipWith, getElem?_eq_getElem inside, getElem?_eq_getElem inside']
  · have outside' : b.length ≤ c := eq ▸ outside
    simp [getElem?_zipWith, getElem?_eq_none outside, getElem?_eq_none outside']

theorem dot_zipWith_sub {t : F} {a b : List F} (eq : a.length = b.length) (v : ℕ → F) :
    dot (zipWith (fun x y => x - t * y) a b) v = dot a v - t * dot b v := by
  have length : (zipWith (fun x y => x - t * y) a b).length = a.length := by
    simp [eq]
  unfold dot
  rw [length, ← eq, Finset.mul_sum, ← Finset.sum_sub_distrib]
  refine Finset.sum_congr rfl fun i _ => ?_
  rw [getD_zipWith_sub eq]
  ring

/-- A row with a single one, at a place inside it. -/
def unit (n i : ℕ) : List F :=
  (List.range n).map fun c => if c = i then 1 else 0

@[simp] theorem length_unit (n i : ℕ) : (unit n i : List F).length = n := by
  simp [unit]

theorem getD_unit {n i c : ℕ} (lt : c < n) :
    (unit n i : List F).getD c 0 = if c = i then 1 else 0 := by
  simp [unit, getElem?_range lt]

/-- A row that has a one at one place and zeros elsewhere reads that coordinate. -/
theorem dot_of_unit {a : List F} {j : ℕ} (lt : j < a.length)
    (ones : ∀ c < a.length, a.getD c 0 = if j = c then 1 else 0) (v : ℕ → F) :
    dot a v = v j := by
  unfold dot
  rw [Finset.sum_eq_single j]
  · rw [ones j lt, if_pos rfl, one_mul]
  · intro c mem other
    rw [ones c (Finset.mem_range.mp mem), if_neg (Ne.symm other), zero_mul]
  · intro outside
    exact absurd (Finset.mem_range.mpr lt) outside

/-! ## The rows under reduction -/

/-- A row of the matrix under reduction, beside the same row of the matrix that is to become
its inverse. -/
structure Row (F : Type*) where
  left : List F
  right : List F
deriving Repr, DecidableEq

namespace Row

/-- An entry of the matrix under reduction. -/
def entry (r : Row F) (c : ℕ) : F :=
  r.left.getD c 0

/-- Both halves are multiplied. -/
def scale (t : F) (r : Row F) : Row F :=
  ⟨r.left.map (· * t), r.right.map (· * t)⟩

/-- A multiple of another row is taken away from both halves. -/
def cancel (t : F) (r pivot : Row F) : Row F :=
  ⟨List.zipWith (fun x y => x - t * y) r.left pivot.left,
   List.zipWith (fun x y => x - t * y) r.right pivot.right⟩

/-- Both halves have the width of the matrix. -/
structure Sized (n : ℕ) (r : Row F) : Prop where
  left : r.left.length = n
  right : r.right.length = n

/-- The left half at one vector is the right half at another. -/
def Tells (d s : ℕ → F) (r : Row F) : Prop :=
  dot r.left d = dot r.right s

variable {n : ℕ} {d s : ℕ → F} {t : F} {pivot r : Row F}

theorem entry_scale (t : F) (r : Row F) (c : ℕ) : (r.scale t).entry c = r.entry c * t := by
  rcases Nat.lt_or_ge c r.left.length with inside | outside
  · simp [entry, scale, getElem?_eq_getElem inside]
  · simp [entry, scale, getElem?_eq_none outside]

theorem entry_cancel (pivotSized : pivot.Sized n) (h : r.Sized n) (c : ℕ) :
    (r.cancel t pivot).entry c = r.entry c - t * pivot.entry c :=
  getD_zipWith_sub (h.left.trans pivotSized.left.symm) c

theorem Sized.scale (h : r.Sized n) : (r.scale t).Sized n where
  left := by simpa [Row.scale] using h.left
  right := by simpa [Row.scale] using h.right

theorem Sized.cancel (pivotSized : pivot.Sized n) (h : r.Sized n) : (r.cancel t pivot).Sized n where
  left := by simp [Row.cancel, h.left, pivotSized.left]
  right := by simp [Row.cancel, h.right, pivotSized.right]

theorem Tells.scale (h : r.Tells d s) : (r.scale t).Tells d s := by
  unfold Tells Row.scale
  rw [dot_map_mul, dot_map_mul, h]

theorem Tells.cancel (pivotSized : pivot.Sized n) (h : r.Sized n)
    (pivotTells : pivot.Tells d s) (tells : r.Tells d s) : (r.cancel t pivot).Tells d s := by
  unfold Tells Row.cancel
  rw [dot_zipWith_sub (h.left.trans pivotSized.left.symm),
    dot_zipWith_sub (h.right.trans pivotSized.right.symm), tells, pivotTells]

end Row

/-- The row at an index. -/
def row (rows : List (Row F)) (j : ℕ) : Row F :=
  rows.getD j ⟨[], []⟩

omit [Field F] in
theorem row_of_lt {rows : List (Row F)} {j : ℕ} (lt : j < rows.length) : row rows j = rows[j] := by
  simp [row, getElem?_eq_getElem lt]

/-- Two rows change places. -/
def swapRows (i j : ℕ) (rows : List (Row F)) : List (Row F) :=
  (rows.set i (row rows j)).set j (row rows i)

omit [Field F] in
theorem row_swapRows {rows : List (Row F)} {i j k : ℕ} (insideI : i < rows.length)
    (insideJ : j < rows.length) : row (swapRows i j rows) k = row rows (swap i j k) := by
  unfold swapRows
  rcases eq_or_ne k j with rfl | notJ
  · simp [row, insideJ]
  · rcases eq_or_ne k i with rfl | notI
    · simp [row, notJ.symm, insideI]
    · rw [swap_apply_of_ne_of_ne notI notJ]
      simp [row, notJ.symm, notI.symm]

/-- The pivot row is scaled to a one, and the column is cleared in every other row. -/
def reduceColumn (i : ℕ) (rows : List (Row F)) : List (Row F) :=
  let pivot := (row rows i).scale ((row rows i).entry i)⁻¹
  rows.mapIdx fun j r => if j = i then pivot else r.cancel (r.entry i) pivot

theorem row_reduceColumn {rows : List (Row F)} {i k : ℕ} (lt : k < rows.length) :
    row (reduceColumn i rows) k =
      if k = i then (row rows i).scale ((row rows i).entry i)⁻¹
      else (row rows k).cancel ((row rows k).entry i)
        ((row rows i).scale ((row rows i).entry i)⁻¹) := by
  unfold reduceColumn
  rw [row_of_lt (by simpa using lt), getElem_mapIdx, ← row_of_lt lt]

/-! ## The reduction -/

variable [DecidableEq F]

/-- The first row, from the diagonal down, that is not zero in the column. -/
def findPivot (n i : ℕ) (rows : List (Row F)) : Option ℕ :=
  (List.range' i (n - i)).find? fun j => (row rows j).entry i ≠ 0

/-- One column is reduced, unless no row can be its pivot. -/
def step (n i : ℕ) (rows : List (Row F)) : Option (List (Row F)) :=
  (findPivot n i rows).map fun j => reduceColumn i (swapRows i j rows)

/-- The columns are reduced from left to right. At a column without a pivot the rows stay as
they are by then. -/
def sweep (n : ℕ) : ℕ → ℕ → List (Row F) → Bool × List (Row F)
  | 0, _, rows => (true, rows)
  | left + 1, i, rows =>
      match step n i rows with
      | none => (false, rows)
      | some reduced => sweep n left (i + 1) reduced

/-- The rows of a matrix beside those of the identity. -/
def augment (n : ℕ) (matrix : List (List F)) : List (Row F) :=
  matrix.mapIdx fun i r => ⟨r, unit n i⟩

/-- Whether the reduction went through, and what stands in the place of the inverse. -/
def invert (n : ℕ) (matrix : List (List F)) : Bool × List (List F) :=
  let result := sweep n n 0 (augment n matrix)
  (result.1, result.2.map Row.right)

/-! ## What a step keeps -/

/-- Only the zero vector is sent to zero by every row. -/
def Regular (n : ℕ) (form : ℕ → List F) : Prop :=
  ∀ v : ℕ → F, (∀ j < n, dot (form j) v = 0) → ∀ c < n, v c = 0

/-- The rows while columns are reduced: those to the left are the columns of the identity,
and no nonzero vector is sent to zero. -/
structure Reduced (n i : ℕ) (rows : List (Row F)) : Prop where
  length : rows.length = n
  sized : ∀ j < n, (row rows j).Sized n
  columns : ∀ c < i, ∀ j < n, (row rows j).entry c = if j = c then 1 else 0
  regular : Regular n fun j => (row rows j).left

variable {n i : ℕ} {rows : List (Row F)}

omit [DecidableEq F] in
/-- The vector that would be sent to zero if no row could be the pivot of the column. -/
theorem Reduced.exists_pivot (h : Reduced n i rows) (lt : i < n) :
    ∃ j, i ≤ j ∧ j < n ∧ (row rows j).entry i ≠ 0 := by
  by_contra none
  have zeros : ∀ j, i ≤ j → j < n → (row rows j).entry i = 0 := by
    intro j after bound
    by_contra ne
    exact none ⟨j, after, bound, ne⟩
  let v : ℕ → F := fun c => if c < i then -(row rows c).entry i else if c = i then 1 else 0
  have sent : ∀ j < n, dot (row rows j).left v = 0 := by
    intro j bound
    have width := (h.sized j bound).left
    -- only the reduced columns and the column itself meet a nonzero coordinate
    have split : dot (row rows j).left v
        = ∑ c ∈ Finset.range (i + 1), (row rows j).entry c * v c := by
      unfold dot
      rw [width]
      refine (Finset.sum_subset (Finset.range_mono lt) fun c _ outside => ?_).symm
      have beyond : ¬ c < i ∧ c ≠ i := by
        have := Finset.mem_range.not.mp outside
        omega
      simp [v, beyond.1, beyond.2]
    have reducedColumns : ∑ c ∈ Finset.range i, (row rows j).entry c * v c
        = if j < i then -(row rows j).entry i else 0 := by
      rw [Finset.sum_congr rfl fun c mem => by
        rw [h.columns c (Finset.mem_range.mp mem) j bound]]
      simp only [ite_mul, one_mul, zero_mul, Finset.sum_ite_eq, Finset.mem_range, v]
      split <;> rfl
    rw [split, Finset.sum_range_succ, reducedColumns]
    split
    case isTrue prev => simp [v]
    case isFalse after => simp [zeros j (Nat.le_of_not_lt after) bound]
  have zero := h.regular v sent i lt
  simp [v] at zero

theorem findPivot_some {j : ℕ} (found : findPivot n i rows = some j) :
    i ≤ j ∧ j < n ∧ (row rows j).entry i ≠ 0 := by
  have mem := mem_range'_1.mp (mem_of_find?_eq_some found)
  have ne := find?_some found
  exact ⟨mem.1, by omega, of_decide_eq_true ne⟩

theorem Reduced.findPivot_isSome (h : Reduced n i rows) (lt : i < n) :
    ∃ j, findPivot n i rows = some j := by
  obtain ⟨j, after, bound, ne⟩ := h.exists_pivot lt
  refine Option.isSome_iff_exists.mp (find?_isSome.mpr ⟨j, ?_, decide_eq_true ne⟩)
  exact mem_range'_1.mpr ⟨after, by omega⟩

omit [DecidableEq F] in
/-- Swapping with a row further down touches no reduced column. -/
theorem Reduced.swapRows {j : ℕ} (h : Reduced n i rows) (lt : i < n) (after : i ≤ j)
    (bound : j < n) : Reduced n i (swapRows i j rows) := by
  have rowOf (k : ℕ) : row (GaussJordan.swapRows i j rows) k = row rows (swap i j k) :=
    row_swapRows (h.length ▸ lt) (h.length ▸ bound)
  have swapped {k : ℕ} (small : k < n) : swap i j k < n := by
    rw [swap_apply_def]
    split_ifs <;> assumption
  refine ⟨?_, fun k small => ?_, fun c prev k small => ?_, fun v zero => ?_⟩
  · simpa [GaussJordan.swapRows] using h.length
  · rw [rowOf]
    exact h.sized _ (swapped small)
  · rw [rowOf, h.columns c prev _ (swapped small)]
    have fixed : swap i j c = c :=
      swap_apply_of_ne_of_ne (by omega) (by omega)
    have : swap i j k = c ↔ k = c := by
      rw [swap_apply_eq_iff, fixed]
    simp only [this]
  · refine h.regular v fun k small => ?_
    have zeroAt : dot (row (GaussJordan.swapRows i j rows) (swap i j k)).left v = 0 :=
      zero (swap i j k) (swapped small)
    rwa [rowOf, swap_apply_self] at zeroAt

omit [DecidableEq F] in
/-- Reducing a column whose pivot is not zero makes it a column of the identity. -/
theorem Reduced.reduceColumn (h : Reduced n i rows) (lt : i < n)
    (ne : (row rows i).entry i ≠ 0) : Reduced n (i + 1) (reduceColumn i rows) := by
  have rowOf {k : ℕ} (small : k < n) := row_reduceColumn (i := i) (h.length ▸ small)
  set pivot := (row rows i).scale ((row rows i).entry i)⁻¹ with pivotEq
  have pivotSized : pivot.Sized n := (h.sized i lt).scale
  have pivotEntry (c : ℕ) : pivot.entry c = (row rows i).entry c * ((row rows i).entry i)⁻¹ :=
    Row.entry_scale _ _ c
  have pivotOne : pivot.entry i = 1 := by
    rw [pivotEntry, mul_inv_cancel₀ ne]
  refine ⟨?_, fun k small => ?_, fun c prev k small => ?_, fun v zero => ?_⟩
  · simpa [GaussJordan.reduceColumn] using h.length
  · rw [rowOf small]
    split
    · exact pivotSized
    · exact Row.Sized.cancel pivotSized (h.sized k small)
  · rw [rowOf small]
    rcases Nat.lt_succ_iff_lt_or_eq.mp prev with left | rfl
    · -- a column already reduced: the pivot row is zero there
      have pivotZero : pivot.entry c = 0 := by
        rw [pivotEntry, h.columns c left i lt, if_neg (by omega), zero_mul]
      split
      case isTrue here =>
        rw [pivotZero, if_neg (by omega)]
      case isFalse other =>
        rw [Row.entry_cancel pivotSized (h.sized k small), pivotZero,
          h.columns c left k small, mul_zero, sub_zero]
    · split
      case isTrue here => exact pivotOne
      case isFalse other =>
        rw [Row.entry_cancel pivotSized (h.sized k small), pivotOne]
        ring
  · -- every old row is a combination of the new ones
    have pivotDot : dot pivot.left v = 0 := by
      have zeroAt : dot (row (GaussJordan.reduceColumn i rows) i).left v = 0 := zero i lt
      rwa [rowOf lt, if_pos rfl] at zeroAt
    refine h.regular v fun k small => ?_
    rcases eq_or_ne k i with rfl | other
    · rw [pivotEq, Row.scale, dot_map_mul] at pivotDot
      exact (mul_eq_zero.mp pivotDot).resolve_right (inv_ne_zero ne)
    have zeroAt : dot (row (GaussJordan.reduceColumn i rows) k).left v = 0 := zero k small
    rw [rowOf small, if_neg other, Row.cancel,
      dot_zipWith_sub ((h.sized k small).left.trans pivotSized.left.symm), pivotDot,
      mul_zero, sub_zero] at zeroAt
    exact zeroAt

/-- What a column's step can do: it swaps in a row that is not zero there, and reduces. -/
theorem step_cases {reducedRows : List (Row F)} (stepped : step n i rows = some reducedRows) :
    ∃ j, i ≤ j ∧ j < n ∧ (row rows j).entry i ≠ 0 ∧
      reducedRows = reduceColumn i (swapRows i j rows) := by
  obtain ⟨j, found, rfl⟩ := Option.map_eq_some_iff.mp stepped
  obtain ⟨after, bound, ne⟩ := findPivot_some found
  exact ⟨j, after, bound, ne, rfl⟩

theorem Reduced.step (h : Reduced n i rows) (lt : i < n) {reducedRows : List (Row F)}
    (stepped : step n i rows = some reducedRows) : Reduced n (i + 1) reducedRows := by
  obtain ⟨j, after, bound, ne, rfl⟩ := step_cases stepped
  refine (h.swapRows lt after bound).reduceColumn lt ?_
  rw [row_swapRows (h.length ▸ lt) (h.length ▸ bound), swap_apply_left]
  exact ne

/-- Every equation that the rows state is stated by the rows after a step. -/
theorem Reduced.tells_step (h : Reduced n i rows) (lt : i < n) {d s : ℕ → F}
    (tells : ∀ j < n, (row rows j).Tells d s) {reducedRows : List (Row F)}
    (stepped : GaussJordan.step n i rows = some reducedRows) :
    ∀ j < n, (row reducedRows j).Tells d s := by
  obtain ⟨j, after, bound, -, rfl⟩ := step_cases stepped
  have swapped := h.swapRows lt after bound
  have swappedTells : ∀ k < n, (row (GaussJordan.swapRows i j rows) k).Tells d s := by
    intro k small
    rw [row_swapRows (h.length ▸ lt) (h.length ▸ bound), swap_apply_def]
    split_ifs
    · exact tells j bound
    · exact tells i lt
    · exact tells k small
  intro k small
  rw [row_reduceColumn (swapped.length ▸ small)]
  split
  · exact (swappedTells i lt).scale
  · exact Row.Tells.cancel (swapped.sized i lt).scale (swapped.sized k small)
      (swappedTells i lt).scale (swappedTells k small)

/-- A whole sweep: it goes through, ends at the identity, and states the same equations. -/
theorem Reduced.sweep {left : ℕ} (h : Reduced n i rows) (all : i + left = n) :
    ∃ result, sweep n left i rows = (true, result) ∧ Reduced n n result ∧
      ∀ d s : ℕ → F, (∀ j < n, (row rows j).Tells d s) → ∀ j < n, (row result j).Tells d s := by
  induction left generalizing i rows with
  | zero =>
    obtain rfl : i = n := by omega
    exact ⟨rows, rfl, h, fun _ _ tells => tells⟩
  | succ left ih =>
    have lt : i < n := by omega
    obtain ⟨j, found⟩ := h.findPivot_isSome lt
    have stepped : GaussJordan.step n i rows
        = some (GaussJordan.reduceColumn i (GaussJordan.swapRows i j rows)) := by
      rw [GaussJordan.step, found, Option.map_some]
    obtain ⟨result, swept, done, later⟩ := ih (h.step lt stepped) (by omega)
    refine ⟨result, ?_, done, fun d s tells => ?_⟩
    · rw [GaussJordan.sweep, stepped]
      exact swept
    · exact later d s (h.tells_step lt tells stepped)

/-! ## The inverse -/

omit [DecidableEq F] in
theorem row_augment {matrix : List (List F)} {j : ℕ} (lt : j < matrix.length) :
    row (augment n matrix) j = ⟨matrix.getD j [], unit n j⟩ := by
  rw [row_of_lt (by simpa [augment] using lt)]
  simp [augment, getElem?_eq_getElem lt]

omit [DecidableEq F] in
theorem reduced_augment {matrix : List (List F)} (square : matrix.length = n)
    (widths : ∀ r ∈ matrix, r.length = n) (regular : Regular n fun j => matrix.getD j []) :
    Reduced n 0 (augment n matrix) where
  length := by simpa [augment] using square
  sized j bound := by
    have lt : j < matrix.length := square ▸ bound
    rw [row_augment lt]
    refine ⟨?_, length_unit n j⟩
    simpa [getElem?_eq_getElem lt]
      using widths _ (getElem_mem lt)
  columns c before := absurd before (Nat.not_lt_zero c)
  regular v zero := regular v fun j bound => by
    have zeroAt : dot (row (augment n matrix) j).left v = 0 := zero j bound
    rwa [row_augment (square ▸ bound)] at zeroAt

/-- The inverse of a regular matrix is found, and gives back any vector from its image. -/
theorem invert_solves {matrix : List (List F)} (square : matrix.length = n)
    (widths : ∀ r ∈ matrix, r.length = n) (h : Regular n fun j => matrix.getD j []) :
    (invert n matrix).1 = true ∧ (invert n matrix).2.length = n ∧
      (∀ r ∈ (invert n matrix).2, r.length = n) ∧ ∀ d : ℕ → F, ∀ j < n,
        dot ((invert n matrix).2.getD j []) (fun i => dot (matrix.getD i []) d) = d j := by
  obtain ⟨result, swept, done, tells⟩ := (reduced_augment square widths h).sweep (Nat.zero_add n)
  have inverse : invert n matrix = (true, result.map Row.right) := by
    rw [invert, swept]
  have rightOf {j : ℕ} (bound : j < n) :
      (result.map Row.right).getD j [] = (row result j).right := by
    have lt : j < result.length := done.length ▸ bound
    simp [row, getElem?_eq_getElem lt]
  rw [inverse]
  refine ⟨rfl, by simpa using done.length, fun r mem => ?_, fun d j bound => ?_⟩
  · obtain ⟨whole, there, rfl⟩ := mem_map.mp mem
    obtain ⟨j, lt, rfl⟩ := getElem_of_mem there
    have := (done.sized j (done.length ▸ lt)).right
    rwa [row_of_lt lt] at this
  · -- the augmented rows state that the image of `d` is the image of `d`
    have start : ∀ k < n, (row (augment n matrix) k).Tells d
        (fun i => dot (matrix.getD i []) d) := by
      intro k small
      rw [row_augment (square ▸ small), Row.Tells,
        dot_of_unit (a := unit n k) (j := k) (by simpa using small)]
      intro c within
      rw [getD_unit (by simpa using within)]
      simp only [eq_comm]
    have final := tells d _ start j bound
    rw [rightOf bound, ← final]
    have sized := done.sized j bound
    refine dot_of_unit (by rw [sized.left]; exact bound) (fun c within => ?_) d
    exact done.columns c (sized.left ▸ within) j bound

end GaussJordan
