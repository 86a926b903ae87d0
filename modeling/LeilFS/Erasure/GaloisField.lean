/-
Module: LeilFS.Erasure.GaloisField
Purpose: The field of 256 elements that erasure coding computes in: multiplication by two,
  logarithm and exponent tables, product and inverse, and that they form a field.
Trusted boundary: none
-/
import Mathlib

namespace LeilFS.Erasure

open Function

/-! ## The tables -/

/-- Multiply by 2 in GF(2^8). -/
def gfMul2 (x : UInt8) : UInt8 :=
  (x <<< 1) ^^^ (if x &&& 0x80 ≠ 0 then 0x1d else 0)

/-- The recursion of the logarithm. It ends at the first power that is the argument. -/
def gfLog.search (x : UInt8) : ℕ → UInt8 → ℕ → ℕ
  | 0, _, n => n
  | fuel + 1, pow2n, n => if x = pow2n then n else search x fuel (gfMul2 pow2n) (n + 1)

/-- Base 2 logarithm. -/
def gfLog (x : UInt8) : ℕ :=
  gfLog.search x 255 2 1

/-- The recursion of the exponent. -/
def gfExp.search (x : ℕ) : ℕ → UInt8 → ℕ → UInt8
  | 0, pow2n, _ => pow2n
  | fuel + 1, pow2n, n => if x = n then pow2n else search x fuel (gfMul2 pow2n) (n + 1)

/-- Base 2 exponent. -/
def gfExp (x : ℕ) : UInt8 :=
  gfExp.search x 255 2 1

def gfLogTable : List ℕ :=
  0 :: (List.range 255).map fun i => gfLog (UInt8.ofNat (i + 1))

def gfExpTable : List UInt8 :=
  1 :: (List.range 255).map fun i => gfExp (i + 1)

/-! ## Product and inverse -/

def gfMul (a b : UInt8) : UInt8 :=
  if a = 0 ∨ b = 0 then 0
  else
    let i := gfLogTable.getD a.toNat 0 + gfLogTable.getD b.toNat 0
    gfExpTable.getD (if i > 254 then i - 255 else i) 0

def gfInv (a : UInt8) : UInt8 :=
  if a = 0 then 0 else gfExpTable.getD (255 - gfLogTable.getD a.toNat 0) 0

/-! ## Powers of two -/

theorem and_high_bit (a : UInt8) : a &&& 0x80 = 0 ∨ a &&& 0x80 = 0x80 := by
  have bytes : ∀ i : Fin 256, UInt8.ofNat i &&& 0x80 = 0 ∨ UInt8.ofNat i &&& 0x80 = 0x80 := by
    decide +kernel
  simpa using bytes ⟨a.toNat, a.toNat_lt⟩

/-- Doubling distributes over the sum of the field. -/
theorem gfMul2_xor (a b : UInt8) : gfMul2 (a ^^^ b) = gfMul2 a ^^^ gfMul2 b := by
  have high : (a ^^^ b) &&& 0x80 = (a &&& 0x80) ^^^ (b &&& 0x80) := by
    apply UInt8.toBitVec_inj.mp
    simp only [UInt8.toBitVec_and]
    ext i
    simp [Bool.and_xor_distrib_right]
  -- the reduction is needed for the sum when it is needed for just one of the two
  have reduction : (if (a ^^^ b) &&& 0x80 ≠ 0 then 0x1d else 0 : UInt8)
      = (if a &&& 0x80 ≠ 0 then 0x1d else 0) ^^^ (if b &&& 0x80 ≠ 0 then 0x1d else 0) := by
    rw [high]
    rcases and_high_bit a with ha | ha <;> rcases and_high_bit b with hb | hb
    all_goals
      rw [ha, hb]
      rfl
  unfold gfMul2
  rw [UInt8.shiftLeft_xor, reduction]
  ac_rfl

/-- The power of two with an exponent. -/
def power (n : ℕ) : UInt8 :=
  gfMul2^[n] 1

theorem iterate_gfMul2_xor (n : ℕ) (a b : UInt8) :
    gfMul2^[n] (a ^^^ b) = gfMul2^[n] a ^^^ gfMul2^[n] b := by
  induction n with
  | zero => rfl
  | succ n ih => rw [iterate_succ_apply', iterate_succ_apply', iterate_succ_apply', ih, gfMul2_xor]

theorem iterate_gfMul2_zero (n : ℕ) : gfMul2^[n] 0 = 0 :=
  iterate_fixed (by decide) n

theorem iterate_power (n e : ℕ) : gfMul2^[n] (power e) = power (n + e) :=
  (iterate_add_apply gfMul2 n e 1).symm

theorem power_period : power 255 = 1 := by
  decide +kernel

theorem power_add_period (n : ℕ) : power (n + 255) = power n := by
  rw [← iterate_power, power_period]
  rfl

theorem power_ne_zero (n : ℕ) : power n ≠ 0 := by
  induction n with
  | zero => decide
  | succ n ih =>
    intro zero
    have whole : power (254 + (n + 1)) = 0 := by
      rw [← iterate_power, zero, iterate_gfMul2_zero]
    rw [show 254 + (n + 1) = n + 255 by omega, power_add_period] at whole
    exact ih whole

/-- Two has order 255: none of its powers at a maximal proper divisor is one. -/
theorem minimalPeriod_gfMul2 : minimalPeriod gfMul2 1 = 255 := by
  have periodic : Function.IsPeriodicPt gfMul2 255 1 := power_period
  have divides := periodic.minimalPeriod_dvd
  have at85 : ¬ minimalPeriod gfMul2 1 ∣ 85 := by
    rw [← isPeriodicPt_iff_minimalPeriod_dvd]
    exact (by decide +kernel : ¬ gfMul2^[85] 1 = 1)
  have at51 : ¬ minimalPeriod gfMul2 1 ∣ 51 := by
    rw [← isPeriodicPt_iff_minimalPeriod_dvd]
    exact (by decide +kernel : ¬ gfMul2^[51] 1 = 1)
  have at15 : ¬ minimalPeriod gfMul2 1 ∣ 15 := by
    rw [← isPeriodicPt_iff_minimalPeriod_dvd]
    exact (by decide +kernel : ¬ gfMul2^[15] 1 = 1)
  have divisors : ∀ d ∈ Nat.divisors 255, d ∣ 85 ∨ d ∣ 51 ∨ d ∣ 15 ∨ d = 255 := by
    decide +kernel
  rcases divisors _ (Nat.mem_divisors.mpr ⟨divides, by decide⟩) with bad | bad | bad | eq
  · exact absurd bad at85
  · exact absurd bad at51
  · exact absurd bad at15
  · exact eq

theorem power_injOn : Set.InjOn power (Set.Iio 255) := by
  have injective := iterate_injOn_Iio_minimalPeriod (f := gfMul2) (x := 1)
  rwa [minimalPeriod_gfMul2] at injective

/-- Every nonzero byte is a power of two. -/
theorem exists_power {a : UInt8} (ne : a ≠ 0) : ∃ n < 255, power n = a := by
  let powers := (Finset.range 255).image fun n => (power n).toNat
  have all : powers = (Finset.range 256).erase 0 := by
    refine Finset.eq_of_subset_of_card_le ?_ ?_
    · intro byte mem
      obtain ⟨n, -, rfl⟩ := Finset.mem_image.mp mem
      refine Finset.mem_erase.mpr ⟨fun zero => power_ne_zero n ?_, ?_⟩
      · exact UInt8.toNat_inj.mp zero
      · exact Finset.mem_range.mpr (UInt8.toNat_lt _)
    · rw [Finset.card_image_of_injOn]
      · simp
      · intro i insideI j insideJ eq
        exact power_injOn (by simpa using insideI) (by simpa using insideJ)
          (UInt8.toNat_inj.mp eq)
  have mem : a.toNat ∈ powers := by
    rw [all]
    refine Finset.mem_erase.mpr ⟨fun zero => ne (UInt8.toNat_inj.mp zero), ?_⟩
    exact Finset.mem_range.mpr a.toNat_lt
  obtain ⟨n, bound, eq⟩ := Finset.mem_image.mp mem
  exact ⟨n, Finset.mem_range.mp bound, UInt8.toNat_inj.mp eq⟩

/-! ## What the tables hold -/

/-- From a power that is not past the argument's, the search stops at the argument's. -/
theorem search_gfLog {x : UInt8} {fuel n : ℕ} (found : ∃ e, n ≤ e ∧ e < n + fuel ∧ power e = x) :
    power (gfLog.search x fuel (power n) n) = x ∧
      n ≤ gfLog.search x fuel (power n) n ∧ gfLog.search x fuel (power n) n < n + fuel := by
  induction fuel generalizing n with
  | zero => omega
  | succ fuel ih =>
    rw [gfLog.search]
    split
    case isTrue here => exact ⟨here.symm, le_rfl, by omega⟩
    case isFalse other =>
      obtain ⟨e, after, prev, eq⟩ := found
      have later : n ≠ e := by
        rintro rfl
        exact other eq.symm
      have next : gfMul2 (power n) = power (n + 1) := (iterate_succ_apply' gfMul2 n 1).symm
      rw [next]
      obtain ⟨value, low, high⟩ := ih (n := n + 1) ⟨e, by omega, by omega, eq⟩
      exact ⟨value, by omega, by omega⟩

theorem power_gfLog {x : UInt8} (ne : x ≠ 0) :
    power (gfLog x) = x ∧ 1 ≤ gfLog x ∧ gfLog x ≤ 255 := by
  have found : ∃ e, 1 ≤ e ∧ e < 1 + 255 ∧ power e = x := by
    obtain ⟨n, bound, eq⟩ := exists_power ne
    rcases Nat.eq_zero_or_pos n with rfl | pos
    · -- one is found at the end of the period
      exact ⟨255, by omega, by omega, power_period.trans eq⟩
    · exact ⟨n, pos, by omega, eq⟩
  obtain ⟨value, low, high⟩ := search_gfLog found
  exact ⟨value, low, Nat.le_of_lt_succ high⟩

theorem search_gfExp {x fuel n : ℕ} (after : n ≤ x) (prev : x ≤ n + fuel) :
    gfExp.search x fuel (power n) n = power x := by
  induction fuel generalizing n with
  | zero =>
    obtain rfl : n = x := by omega
    rfl
  | succ fuel ih =>
    rw [gfExp.search]
    split
    case isTrue here => rw [here]
    case isFalse other =>
      have next : gfMul2 (power n) = power (n + 1) := (iterate_succ_apply' gfMul2 n 1).symm
      rw [next]
      exact ih (by omega) (by omega)

theorem getD_gfLogTable {x : UInt8} (ne : x ≠ 0) : gfLogTable.getD x.toNat 0 = gfLog x := by
  obtain ⟨i, position⟩ : ∃ i, x.toNat = i + 1 :=
    Nat.exists_eq_succ_of_ne_zero fun zero => ne (UInt8.toNat_inj.mp zero)
  have lt : i < 255 := by
    have := x.toNat_lt
    omega
  have eq : UInt8.ofNat (i + 1) = x := by
    rw [← position, UInt8.ofNat_toNat]
  rw [position, gfLogTable, List.getD_cons_succ, List.getD_eq_getElem?_getD, List.getElem?_map,
    List.getElem?_range lt, Option.map_some, Option.getD_some, eq]

theorem getD_gfExpTable {n : ℕ} (le : n ≤ 255) : gfExpTable.getD n 0 = power n := by
  rcases n with - | i
  · rfl
  · have below : i < 255 := by omega
    have value : gfExp (i + 1) = power (i + 1) := search_gfExp (n := 1) (by omega) (by omega)
    simp [gfExpTable, List.getElem?_range below, value]

/-- A product adds the logarithms. -/
theorem gfMul_eq_power {a b : UInt8} (ha : a ≠ 0) (hb : b ≠ 0) :
    gfMul a b = power (gfLog a + gfLog b) := by
  obtain ⟨-, -, highA⟩ := power_gfLog ha
  obtain ⟨-, -, highB⟩ := power_gfLog hb
  rw [gfMul, if_neg (by simp [ha, hb]), getD_gfLogTable ha, getD_gfLogTable hb]
  dsimp only
  split
  case isTrue large =>
    rw [getD_gfExpTable (by omega), ← power_add_period, Nat.sub_add_cancel (by omega)]
  case isFalse small => rw [getD_gfExpTable (by omega)]

/-- A product doubles one factor as often as the other's logarithm says. -/
theorem gfMul_eq_iterate (a : UInt8) {b : UInt8} (hb : b ≠ 0) : gfMul a b = gfMul2^[gfLog b] a := by
  by_cases ha : a = 0
  · rw [ha, iterate_gfMul2_zero]
    rfl
  · rw [gfMul_eq_power ha hb, Nat.add_comm, ← iterate_power, (power_gfLog ha).1]

theorem gfMul_comm (a b : UInt8) : gfMul a b = gfMul b a := by
  unfold gfMul
  simp only [or_comm, Nat.add_comm]

@[simp] theorem gfMul_zero (a : UInt8) : gfMul a 0 = 0 := by
  simp [gfMul]

@[simp] theorem zero_gfMul (a : UInt8) : gfMul 0 a = 0 := by
  simp [gfMul]

theorem gfMul_assoc (a b c : UInt8) : gfMul (gfMul a b) c = gfMul a (gfMul b c) := by
  by_cases ha : a = 0
  · simp [ha]
  by_cases hc : c = 0
  · simp [hc]
  rw [gfMul_eq_iterate _ hc, gfMul_comm a b, gfMul_eq_iterate _ ha, gfMul_comm a,
    gfMul_eq_iterate _ ha, gfMul_eq_iterate _ hc, ← iterate_add_apply,
    ← iterate_add_apply, Nat.add_comm]

theorem xor_gfMul (a b c : UInt8) : gfMul (a ^^^ b) c = gfMul a c ^^^ gfMul b c := by
  by_cases hc : c = 0
  · simp [hc]
  rw [gfMul_eq_iterate _ hc, gfMul_eq_iterate _ hc, gfMul_eq_iterate _ hc, iterate_gfMul2_xor]

theorem one_gfMul (a : UInt8) : gfMul 1 a = a := by
  by_cases ha : a = 0
  · rw [ha, gfMul_zero]
  · rw [gfMul_eq_iterate _ ha]
    exact (power_gfLog ha).1

theorem gfMul_gfInv {a : UInt8} (ha : a ≠ 0) : gfMul a (gfInv a) = 1 := by
  obtain ⟨-, -, high⟩ := power_gfLog ha
  rw [gfMul_comm, gfMul_eq_iterate _ ha, gfInv, if_neg ha, getD_gfLogTable ha,
    getD_gfExpTable (by omega), iterate_power, Nat.add_sub_cancel' high, power_period]

theorem gfMul_two (a : UInt8) : gfMul a 2 = gfMul2 a := by
  rw [gfMul_eq_iterate a (by decide)]
  rfl

/-! ## The field -/

/-- A byte as an element of the field. -/
@[ext] structure GF256 where
  byte : UInt8
deriving Repr, DecidableEq

namespace GF256

instance : Zero GF256 := ⟨⟨0⟩⟩
instance : One GF256 := ⟨⟨1⟩⟩
instance : Add GF256 := ⟨fun a b => ⟨a.byte ^^^ b.byte⟩⟩
instance : Mul GF256 := ⟨fun a b => ⟨gfMul a.byte b.byte⟩⟩
instance : Neg GF256 := ⟨id⟩
instance : Sub GF256 := ⟨fun a b => ⟨a.byte ^^^ b.byte⟩⟩
instance : Inv GF256 := ⟨fun a => ⟨gfInv a.byte⟩⟩

@[simp] theorem add_byte (a b : GF256) : (a + b).byte = a.byte ^^^ b.byte := rfl
@[simp] theorem mul_byte (a b : GF256) : (a * b).byte = gfMul a.byte b.byte := rfl

theorem byte_ne_zero {a : GF256} (ne : a ≠ 0) : a.byte ≠ 0 :=
  fun zero => ne (GF256.ext zero)

instance : CommRing GF256 where
  add_assoc a b c := GF256.ext (UInt8.xor_assoc ..)
  zero_add a := GF256.ext (UInt8.zero_xor ..)
  add_zero a := GF256.ext (UInt8.xor_zero ..)
  add_comm a b := GF256.ext (UInt8.xor_comm ..)
  neg_add_cancel a := GF256.ext (UInt8.xor_self ..)
  sub_eq_add_neg a b := rfl
  nsmul := nsmulRec
  zsmul := zsmulRec
  mul_assoc a b c := GF256.ext (gfMul_assoc ..)
  one_mul a := GF256.ext (one_gfMul ..)
  mul_one a := GF256.ext ((gfMul_comm ..).trans (one_gfMul ..))
  zero_mul a := GF256.ext (zero_gfMul a.byte)
  mul_zero a := GF256.ext (gfMul_zero a.byte)
  left_distrib a b c := GF256.ext (by
    simp only [mul_byte, add_byte, gfMul_comm a.byte, xor_gfMul])
  right_distrib a b c := GF256.ext (xor_gfMul ..)
  mul_comm a b := GF256.ext (gfMul_comm ..)

instance : Field GF256 where
  exists_pair_ne := ⟨0, 1, by decide⟩
  mul_inv_cancel a nonzero := GF256.ext (gfMul_gfInv (byte_ne_zero nonzero))
  inv_zero := rfl
  nnqsmul := _
  nnqsmul_def := fun _ _ => rfl
  qsmul := _
  qsmul_def := fun _ _ => rfl

/-- The element that generates the others. -/
def two : GF256 := ⟨2⟩

theorem two_pow (n : ℕ) : two ^ n = ⟨power n⟩ := by
  induction n with
  | zero => rfl
  | succ n ih =>
    rw [pow_succ, ih]
    refine GF256.ext ?_
    exact (gfMul_two _).trans (iterate_succ_apply' gfMul2 n 1).symm

end GF256

end LeilFS.Erasure
