/-
Module: LeilFS.Erasure.Generator
Purpose: The matrices that compute all parts of a code word from its data parts, and that any
  k of their rows determine the data.
Trusted boundary: none
-/
import LeilFS.Erasure.Encode
import LeilFS.Lib.Superregular

namespace LeilFS.Erasure

open List

open GF256 (two two_pow byte)

/-! ## The matrices -/

/-- The rows that copy the data parts. -/
def identityRows (k : ℕ) : Matrix :=
  (List.range k).map (GaussJordan.unit k)

/-- Below the identity, the powers of the powers of two. -/
def gfGenRsMatrix (m k : ℕ) : Matrix :=
  identityRows k ++
    (List.iterate (· * two) 1 (m - k)).map fun gen => List.iterate (· * gen) 1 k

/-- Below the identity, the inverses of the sums of a row number and a column number. -/
def gfGenCauchy1Matrix (m k : ℕ) : Matrix :=
  identityRows k ++
    (List.range' k (m - k)).map fun i => (List.range k).map fun j =>
      (⟨UInt8.ofNat (i ^^^ j)⟩ : GF256)⁻¹

def createRSMatrix (k m : ℕ) : Matrix :=
  if m ≥ 5 ∨ (m = 4 ∧ k > 20) then gfGenCauchy1Matrix (k + m) k else gfGenRsMatrix (k + m) k

/-! ## Three powers of two -/

/-- The powers of two below the twentieth. -/
def smallPowers : List ℕ :=
  [1, 2, 4, 8, 16, 32, 64, 128, 29, 58, 116, 232, 205, 135, 19, 38, 76, 152, 45, 90]

theorem toNat_power {n : ℕ} (lt : n < 20) : (power n).toNat = smallPowers.getD n 0 := by
  have values : ∀ n < 20, (power n).toNat = smallPowers.getD n 0 := by
    decide +kernel
  exact values n lt

theorem two_pow_sum_ne_zero {a b c : ℕ} (smallA : a < 20) (smallB : b < 20) (smallC : c < 20)
    (ab : a ≠ b) (ac : a ≠ c) (bc : b ≠ c) : two ^ a + two ^ b + two ^ c ≠ 0 := by
  have sums : ∀ a < 20, ∀ b < 20, ∀ c < 20,
      smallPowers.getD a 0 ^^^ smallPowers.getD b 0 = smallPowers.getD c 0 →
        a = b ∨ a = c ∨ b = c := by
    decide +kernel
  intro zero
  have cancel := sums a smallA b smallB c smallC ?_
  · simp [ab, ac, bc] at cancel
  rw [two_pow, two_pow, two_pow] at zero
  have bytes : power a ^^^ power b ^^^ power c = 0 := congrArg byte zero
  rw [← toNat_power smallA, ← toNat_power smallB, ← toNat_power smallC, ← UInt8.toNat_xor,
    UInt8.xor_eq_zero_iff.mp bytes]

/-- Three powers whose exponents lie close together do not cancel. -/
theorem two_pow_sum_ne_zero_of_close {a b c : ℕ} (low : ℕ) (lowA : low ≤ a) (lowB : low ≤ b)
    (lowC : low ≤ c) (closeA : a < low + 20) (closeB : b < low + 20) (closeC : c < low + 20)
    (ab : a ≠ b) (ac : a ≠ c) (bc : b ≠ c) : two ^ a + two ^ b + two ^ c ≠ 0 := by
  have factored : two ^ a + two ^ b + two ^ c = two ^ low *
      (two ^ (a - low) + two ^ (b - low) + two ^ (c - low)) := by
    rw [mul_add, mul_add, ← pow_add, ← pow_add, ← pow_add, Nat.add_sub_cancel' lowA,
      Nat.add_sub_cancel' lowB, Nat.add_sub_cancel' lowC]
  rw [factored]
  refine mul_ne_zero (pow_ne_zero _ (by decide)) (two_pow_sum_ne_zero ?_ ?_ ?_ ?_ ?_ ?_) <;> omega

theorem two_pow_injOn : Set.InjOn (two ^ · : ℕ → GF256) (Set.Iio 255) := by
  intro a smallA b smallB eq
  simp only [two_pow] at eq
  exact power_injOn smallA smallB (congrArg byte eq)

/-! ## Generators -/

/-- The identity above a matrix all of whose square submatrices are regular. -/
structure Generator (k m : ℕ) (matrix : Matrix) : Prop where
  length : matrix.length = k + m
  width : ∀ r ∈ matrix, r.length = k
  dataRows : ∀ i < k, ∀ c < k, (matrix.getD i []).getD c 0 = if i = c then 1 else 0
  superregular : Superregular m k fun r c => (matrix.getD (k + r) []).getD c 0

theorem length_identityRows (k : ℕ) : (identityRows k).length = k := by
  simp [identityRows]

theorem getD_identityRows_append {k : ℕ} (parity : Matrix) : ∀ i < k, ∀ c < k,
      ((identityRows k ++ parity).getD i []).getD c 0 = if i = c then (1 : GF256) else 0 := by
  intro i smallI c smallC
  have lt : i < (identityRows k).length := by rwa [length_identityRows]
  have place : (identityRows k ++ parity).getD i [] = GaussJordan.unit k i := by
    rw [getD_eq_getElem?_getD, getElem?_append_left lt]
    simp only [identityRows, getElem?_map, getElem?_range smallI, Option.map_some, Option.getD_some]
  rw [place, GaussJordan.getD_unit smallC]
  simp only [eq_comm]

variable {k m : ℕ}

/-- A matrix below the identity, given by its entries. -/
theorem generator_of_parity {parity : Matrix} {p : ℕ → ℕ → GF256}
    (length : parity.length = m) (width : ∀ r ∈ parity, r.length = k)
    (entries : ∀ r < m, ∀ c < k, (parity.getD r []).getD c 0 = p r c)
    (superregular : Superregular m k p) : Generator k m (identityRows k ++ parity) where
  length := by rw [length_append, length_identityRows, length]
  width r member := by
    rcases mem_append.mp member with inside | inside
    · obtain ⟨i, -, rfl⟩ := mem_map.mp inside
      exact GaussJordan.length_unit k i
    · exact width r inside
  dataRows := getD_identityRows_append parity
  superregular := by
    intro rows columns rowsInside columnsInside enough d zero
    refine superregular rows columns rowsInside columnsInside enough d fun r row => ?_
    refine Eq.trans (Finset.sum_congr rfl fun j column => ?_) (zero r row)
    have place : (identityRows k ++ parity).getD (k + r) [] = parity.getD r [] := by
      rw [getD_eq_getElem?_getD,
        getElem?_append_right (by rw [length_identityRows]; omega), length_identityRows,
        Nat.add_sub_cancel_left, ← getD_eq_getElem?_getD]
    dsimp only
    rw [place, entries r (Finset.mem_range.mp (rowsInside row)) j
      (Finset.mem_range.mp (columnsInside column))]

theorem superregular_rs (fewData : k ≤ 32) (few : m ≤ 3 ∨ (m = 4 ∧ k ≤ 20)) :
    Superregular m k fun r c => (two ^ c) ^ r := by
  refine Superregular.powers (by omega) (fun j _ => pow_ne_zero _ (by decide)) ?_ ?_ ?_
  · intro gap pos small i insideI j insideJ eq
    have boundI : i < k := by simpa using insideI
    have boundJ : j < k := by simpa using insideJ
    have reach {e : ℕ} (lt : e < k) : e * gap < 255 := by
      calc e * gap ≤ 31 * 3 := Nat.mul_le_mul (by omega) (by omega)
        _ < 255 := by norm_num
    simp only [← pow_mul] at eq
    exact Nat.eq_of_mul_eq_mul_right pos (two_pow_injOn (reach boundI) (reach boundJ) eq)
  · intro four a smallA b smallB c smallC ab ac bc
    exact two_pow_sum_ne_zero (by omega) (by omega) (by omega) ab ac bc
  · intro four a smallA b smallB c smallC ab ac bc
    rw [← pow_add, ← pow_add, ← pow_add]
    -- the two smallest exponents give the smallest sum
    refine two_pow_sum_ne_zero_of_close (min (a + b) (min (a + c) (b + c)))
      ?_ ?_ ?_ ?_ ?_ ?_ ?_ ?_ ?_ <;> omega

theorem generator_gfGenRsMatrix (fewData : k ≤ 32)
    (few : m ≤ 3 ∨ (m = 4 ∧ k ≤ 20)) : Generator k m (gfGenRsMatrix (k + m) k) := by
  have rows : k + m - k = m := Nat.add_sub_cancel_left k m
  refine generator_of_parity ?_ ?_ ?_ (superregular_rs fewData few)
  · rw [length_map, length_iterate, rows]
  · intro r mem
    obtain ⟨gen, -, rfl⟩ := mem_map.mp mem
    exact length_iterate _ _ _
  · intro r smallR c smallC
    rw [rows]
    simp only [getD_eq_getElem?_getD, getElem?_map, getElem?_iterate _ _ m r smallR,
      Option.map_some, Option.getD_some, getElem?_iterate _ _ k c smallC,
      mul_right_iterate_apply_one]
    rw [← pow_mul, ← pow_mul, Nat.mul_comm]

/-- The element whose byte is a number. -/
def ofNumber (i : ℕ) : GF256 :=
  ⟨UInt8.ofNat i⟩

theorem ofNumber_inj {i j : ℕ} (smallI : i < 256) (smallJ : j < 256)
    (eq : ofNumber i = ofNumber j) : i = j := by
  have bytes : UInt8.ofNat i = UInt8.ofNat j := congrArg byte eq
  have numbers := congrArg UInt8.toNat bytes
  rwa [UInt8.toNat_ofNat_of_lt' smallI, UInt8.toNat_ofNat_of_lt' smallJ] at numbers

theorem superregular_cauchy (fewData : k ≤ 32) (few : m ≤ 32) :
    Superregular m k fun r c => (ofNumber (k + r) - ofNumber c)⁻¹ := by
  refine Superregular.cauchy (x := fun r => ofNumber (k + r)) (y := ofNumber) ?_ ?_ ?_
  · intro i insideI j insideJ eq
    have boundI : i < m := by simpa using insideI
    have boundJ : j < m := by simpa using insideJ
    have := ofNumber_inj (by omega) (by omega) eq
    omega
  · intro i insideI j insideJ eq
    have boundI : i < k := by simpa using insideI
    have boundJ : j < k := by simpa using insideJ
    exact ofNumber_inj (by omega) (by omega) eq
  · intro r boundR j boundJ eq
    have := ofNumber_inj (by omega) (by omega) eq
    omega

theorem generator_gfGenCauchy1Matrix (fewData : k ≤ 32) (few : m ≤ 32) :
    Generator k m (gfGenCauchy1Matrix (k + m) k) := by
  have rows : k + m - k = m := Nat.add_sub_cancel_left k m
  refine generator_of_parity ?_ ?_ ?_ (superregular_cauchy fewData few)
  · rw [length_map, length_range', rows]
  · intro r mem
    obtain ⟨i, -, rfl⟩ := mem_map.mp mem
    rw [length_map, length_range]
  · intro r smallR c smallC
    rw [rows]
    simp only [getD_eq_getElem?_getD, getElem?_map, getElem?_range' smallR,
      Option.map_some, Option.getD_some, getElem?_range smallC, Nat.one_mul]
    refine congrArg (·⁻¹) (GF256.ext ?_)
    exact UInt8.ofNat_xor ..

/-- For every supported number of data and parity parts the matrix is a generator. -/
theorem generator_createRSMatrix (fewData : k ≤ 32) (few : m ≤ 32) :
    Generator k m (createRSMatrix k m) := by
  unfold createRSMatrix
  split
  case isTrue cauchy => exact generator_gfGenCauchy1Matrix fewData few
  case isFalse powers => exact generator_gfGenRsMatrix fewData (by omega)

/-- Any `k` rows of a generator determine the data. -/
theorem Generator.regular {matrix : Matrix} (h : Generator k m matrix)
    {alive : List ℕ} (nodup : alive.Nodup) (inside : ∀ i ∈ alive, i < k + m)
    (eq : alive.length = k) : GaussJordan.Regular k fun j => matrix.getD (alive.getD j 0) [] := by
  refine h.superregular.regular_systematic (fun i => matrix.getD i []) ?_
    h.dataRows (fun r _ c _ => rfl) nodup inside eq
  intro i small
  have lt : i < matrix.length := h.length ▸ small
  rw [getD_eq_getElem?_getD, getElem?_eq_getElem lt]
  exact h.width _ (getElem_mem lt)

end LeilFS.Erasure
