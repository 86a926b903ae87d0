/-
Module: LeilFS.Erasure.Encode
Purpose: Multiplication of buffers by a matrix, through a table of products for each entry.
Trusted boundary: none
-/
import LeilFS.Erasure.GaloisField
import LeilFS.Lib.GaussJordan

namespace LeilFS.Erasure

open List

open GaussJordan (dot)

/-! ## Tables of products -/

/-- The 32 bytes of a table, as the four words they are written by. -/
structure GFTable where
  t0 : UInt64
  t1 : UInt64
  t2 : UInt64
  t3 : UInt64
deriving Repr, DecidableEq

/-- A byte of a word in memory, least significant first. -/
def byteOf (word : UInt64) (i : ℕ) : UInt8 :=
  (word >>> UInt64.ofNat (8 * i)).toUInt8

/-- A byte of a table. -/
def GFTable.byte (tbl : GFTable) (i : ℕ) : UInt8 :=
  if i < 8 then byteOf tbl.t0 i
  else if i < 16 then byteOf tbl.t1 (i - 8)
  else if i < 24 then byteOf tbl.t2 (i - 16)
  else byteOf tbl.t3 (i - 24)

/-- The table of the products with the low and with the high halves of a byte. -/
def gfVectMulInit (c : UInt8) : GFTable :=
  let c2 := gfMul2 c
  let c4 := gfMul2 c2
  let c8 := gfMul2 c4
  let v1 := c.toUInt64 * 0x0100010001000100
  let v2 := c2.toUInt64 * 0x0101000001010000
  let v4 := c4.toUInt64 * 0x0101010100000000
  let v8 := c8.toUInt64 * 0x0101010101010101
  let low := v1 ^^^ v2 ^^^ v4
  let c17 := gfMul2 c8
  let c18 := gfMul2 c17
  let c20 := gfMul2 c18
  let c24 := gfMul2 c20
  let v10 := c17.toUInt64 * 0x0100010001000100
  let v20 := c18.toUInt64 * 0x0101000001010000
  let v40 := c20.toUInt64 * 0x0101010100000000
  let v80 := c24.toUInt64 * 0x0101010101010101
  let high := v10 ^^^ v20 ^^^ v40
  ⟨low, v8 ^^^ low, high, v80 ^^^ high⟩

/-- The product that a table gives for a byte. -/
def GFTable.product (tbl : GFTable) (a : UInt8) : UInt8 :=
  tbl.byte (a &&& 0xF).toNat ^^^ tbl.byte (16 + (a >>> 4).toNat)

theorem byteOf_xor (v w : UInt64) (i : ℕ) : byteOf (v ^^^ w) i = byteOf v i ^^^ byteOf w i := by
  simp [byteOf, UInt64.shiftRight_xor]

variable {i : ℕ}

/-- One byte in each of some places of a word: nothing is carried from place to place. -/
theorem byteOf_mul (c : UInt8) (mask : UInt64) (chosen : ℕ → Prop) [DecidablePred chosen]
    (noCarry : ∀ i < 9, 255 * (mask.toNat % 2 ^ (8 * i)) < 2 ^ (8 * i))
    (places : ∀ i < 8, mask.toNat / 2 ^ (8 * i) % 256 = if chosen i then 1 else 0) (lt : i < 8) :
    byteOf (c.toUInt64 * mask) i = if chosen i then c else 0 := by
  have below (i : ℕ) (within : i < 9) : c.toNat * (mask.toNat % 2 ^ (8 * i)) < 2 ^ (8 * i) :=
    (Nat.mul_le_mul_right _ (Nat.le_of_lt_succ c.toNat_lt)).trans_lt (noCarry i within)
  have whole : c.toNat * mask.toNat < 2 ^ 64 := by
    simpa [Nat.mod_eq_of_lt mask.toNat_lt] using below 8 (by decide)
  have high : c.toNat * mask.toNat / 2 ^ (8 * i) = c.toNat * (mask.toNat / 2 ^ (8 * i)) := by
    conv_lhs => rw [← Nat.div_add_mod mask.toNat (2 ^ (8 * i))]
    rw [Nat.mul_add, Nat.mul_left_comm, Nat.mul_add_div (Nat.two_pow_pos _),
      Nat.div_eq_of_lt (below i (by omega)), Nat.add_zero]
  have shift : (UInt64.ofNat (8 * i)).toNat % 64 = 8 * i := by
    rw [UInt64.toNat_ofNat']
    omega
  apply UInt8.toNat_inj.mp
  simp only [byteOf, UInt64.toNat_toUInt8, UInt64.toNat_shiftRight, UInt64.toNat_mul,
    UInt8.toNat_toUInt64, shift, Nat.mod_eq_of_lt whole, Nat.shiftRight_eq_div_pow]
  rw [high, Nat.mul_mod, places i lt]
  split <;> simp

theorem byteOf_odd (c : UInt8) (lt : i < 8) :
    byteOf (c.toUInt64 * 0x0100010001000100) i = if i % 2 = 1 then c else 0 :=
  byteOf_mul c 0x0100010001000100 (fun i => i % 2 = 1) (by decide) (by decide) lt

theorem byteOf_pairs (c : UInt8) (lt : i < 8) :
    byteOf (c.toUInt64 * 0x0101000001010000) i = if i / 2 % 2 = 1 then c else 0 :=
  byteOf_mul c 0x0101000001010000 (fun i => i / 2 % 2 = 1) (by decide) (by decide) lt

theorem byteOf_upper (c : UInt8) (lt : i < 8) :
    byteOf (c.toUInt64 * 0x0101010100000000) i = if i / 4 % 2 = 1 then c else 0 :=
  byteOf_mul c 0x0101010100000000 (fun i => i / 4 % 2 = 1) (by decide) (by decide) lt

theorem byteOf_all (c : UInt8) (lt : i < 8) : byteOf (c.toUInt64 * 0x0101010101010101) i = c :=
  (byteOf_mul c 0x0101010101010101 (fun _ => True) (by decide) (by decide) lt).trans rfl

/-- The sum of the doublings of a byte that the bits of a number below 16 select. -/
def spread (c : UInt8) (i : ℕ) : UInt8 :=
  (if i % 2 = 1 then c else 0) ^^^ (if i / 2 % 2 = 1 then gfMul2 c else 0) ^^^
    (if i / 4 % 2 = 1 then gfMul2 (gfMul2 c) else 0) ^^^
    (if i / 8 % 2 = 1 then gfMul2 (gfMul2 (gfMul2 c)) else 0)

/-- Two words written as the table writes them hold the selected sums. -/
theorem byteOf_spread (c : UInt8) (bound : i < 16) :
    (if i < 8 then
      byteOf (c.toUInt64 * 0x0100010001000100 ^^^ (gfMul2 c).toUInt64 * 0x0101000001010000 ^^^
        (gfMul2 (gfMul2 c)).toUInt64 * 0x0101010100000000) i else
      byteOf ((gfMul2 (gfMul2 (gfMul2 c))).toUInt64 * 0x0101010101010101 ^^^
        (c.toUInt64 * 0x0100010001000100 ^^^ (gfMul2 c).toUInt64 * 0x0101000001010000 ^^^
          (gfMul2 (gfMul2 c)).toUInt64 * 0x0101010100000000)) (i - 8)) = spread c i := by
  split
  case isTrue low =>
    have none : i / 8 % 2 ≠ 1 := by omega
    rw [byteOf_xor, byteOf_xor, byteOf_odd c low, byteOf_pairs _ low, byteOf_upper _ low, spread,
      if_neg none, UInt8.xor_zero]
  case isFalse high =>
    have lt : i - 8 < 8 := by omega
    have odd : (i - 8) % 2 = i % 2 := by omega
    have pairs : (i - 8) / 2 % 2 = i / 2 % 2 := by omega
    have upper : (i - 8) / 4 % 2 = i / 4 % 2 := by omega
    have one : i / 8 % 2 = 1 := by omega
    rw [byteOf_xor, byteOf_xor, byteOf_xor, byteOf_odd c lt, byteOf_pairs _ lt, byteOf_upper _ lt,
      byteOf_all _ lt, odd, pairs, upper, UInt8.xor_comm, spread, if_pos one]

theorem byte_gfVectMulInit_low (c : UInt8) (lt : i < 16) :
    (gfVectMulInit c).byte i = spread c i := by
  rw [← byteOf_spread c lt]
  simp only [GFTable.byte, gfVectMulInit, lt, if_true]

theorem byte_gfVectMulInit_high (c : UInt8) (lt : i < 16) :
    (gfVectMulInit c).byte (16 + i) = spread (gfMul2^[4] c) i := by
  rw [← byteOf_spread (gfMul2^[4] c) lt]
  have notFirst : ¬ 16 + i < 8 := by omega
  have notSecond : ¬ 16 + i < 16 := by omega
  have third : 16 + i < 24 ↔ i < 8 := by omega
  simp only [GFTable.byte, notFirst, notSecond, third, if_false, Nat.add_sub_cancel_left,
    show 16 + i - 24 = i - 8 by omega]
  rfl

theorem gfMul_xor (c a b : UInt8) : gfMul c (a ^^^ b) = gfMul c a ^^^ gfMul c b := by
  rw [gfMul_comm, xor_gfMul, gfMul_comm a, gfMul_comm b]

theorem gfMul_power (c : UInt8) (n : ℕ) : gfMul c (power n) = gfMul2^[n] c := by
  induction n with
  | zero => exact (gfMul_comm c 1).trans (one_gfMul c)
  | succ n ih =>
    have next : power (n + 1) = gfMul (power n) 2 :=
      (Function.iterate_succ_apply' gfMul2 n 1).trans (gfMul_two _).symm
    rw [next, ← gfMul_assoc, ih, gfMul_two, ← Function.iterate_succ_apply' gfMul2]

theorem spread_eq_gfMul (c : UInt8) (lt : i < 16) : spread c i = gfMul c (UInt8.ofNat i) := by
  have bits : ∀ i < 16, UInt8.ofNat i = (if i % 2 = 1 then power 0 else 0) ^^^
      (if i / 2 % 2 = 1 then power 1 else 0) ^^^ (if i / 4 % 2 = 1 then power 2 else 0) ^^^
      (if i / 8 % 2 = 1 then power 3 else 0) := by
    decide
  rw [bits i lt, gfMul_xor, gfMul_xor, gfMul_xor]
  simp only [apply_ite (gfMul c), gfMul_power, gfMul_zero]
  rfl

/-- The table of a byte multiplies by it. -/
theorem product_gfVectMulInit (c a : UInt8) : (gfVectMulInit c).product a = gfMul c a := by
  have halves : ∀ i : Fin 256, (UInt8.ofFin i &&& (0xF : UInt8)).toNat < 16 ∧
      (UInt8.ofFin i >>> (4 : UInt8)).toNat < 16 ∧
      (UInt8.ofFin i &&& (0xF : UInt8)) ^^^ (UInt8.ofFin i >>> (4 : UInt8)) <<< (4 : UInt8) =
        UInt8.ofFin i := by
    decide +kernel
  have doubled : ∀ i < 16, gfMul2^[4] (UInt8.ofNat i) = UInt8.ofNat i <<< 4 := by
    decide +kernel
  obtain ⟨low, high, whole⟩ := halves a.toFin
  rw [UInt8.ofFin_toFin] at low high whole
  have shifted := doubled _ high
  rw [UInt8.ofNat_toNat] at shifted
  rw [GFTable.product, byte_gfVectMulInit_low c low, byte_gfVectMulInit_high c high,
    spread_eq_gfMul c low, spread_eq_gfMul _ high, UInt8.ofNat_toNat, UInt8.ofNat_toNat,
    ← gfMul_power, gfMul_assoc, gfMul_comm (power 4), gfMul_power, ← gfMul_xor, shifted, whole]

/-! ## Encoding -/

/-- A matrix, row by row. -/
abbrev Matrix := List (List GF256)

/-- A table for every entry of a matrix. -/
def ecInitTables (matrix : Matrix) : List GFTable :=
  matrix.flatten.map fun c => gfVectMulInit c.byte

/-- A byte of one output: the products of the inputs' bytes with the tables of a row. -/
def ecEncodeByte (srcs : ℕ) (tables : List GFTable) (src : List (List GF256)) (l i : ℕ) : GF256 :=
  (List.range srcs).foldl (fun s j =>
    s + ⟨(tables.getD (l * srcs + j) ⟨0, 0, 0, 0⟩).product ((src.getD j []).getD i 0).byte⟩) 0

/-- The outputs for `dests` rows of tables. -/
def ecEncodeData (len srcs dests : ℕ) (tables : List GFTable) (src : List (List GF256)) :
    List (List GF256) :=
  (List.range dests).map fun l => (List.range len).map fun i => ecEncodeByte srcs tables src l i

theorem foldl_add_eq_sum {F : Type*} [AddCommMonoid F] (f : ℕ → F) (n : ℕ) :
    (List.range n).foldl (fun s j => s + f j) 0 = ∑ j ∈ Finset.range n, f j := by
  induction n with
  | zero => rfl
  | succ n ih => rw [range_succ, foldl_append, ih, Finset.sum_range_succ]; rfl

/-- The entry of a row in the rows written one after another. -/
theorem getD_flatten {α : Type*} {rows : List (List α)} {w : ℕ}
    (width : ∀ r ∈ rows, r.length = w) {l j : ℕ} (row : l < rows.length) (column : j < w)
    (default : α) : rows.flatten.getD (l * w + j) default = (rows.getD l []).getD j default := by
  induction rows generalizing l with
  | nil => simp at row
  | cons first rest ih =>
    have firstWidth : first.length = w := width first mem_cons_self
    cases l with
    | zero => simp [getElem?_append, firstWidth, column]
    | succ l =>
      have past : first.length ≤ (l + 1) * w + j := by
        rw [Nat.add_mul]
        omega
      have shift : (l + 1) * w + j - first.length = l * w + j := by
        rw [Nat.add_mul]
        omega
      rw [flatten_cons, getD_eq_getElem?_getD, getElem?_append_right past, shift, getD_cons_succ]
      exact ih (fun r mem => width r (mem_cons_of_mem _ mem)) (Nat.lt_of_succ_lt_succ row)

/-- Through its tables a matrix is multiplied with the inputs, byte by byte. -/
theorem ecEncodeData_eq {matrix : Matrix} {srcs : ℕ} (width : ∀ r ∈ matrix, r.length = srcs)
    (len : ℕ) (src : List (List GF256)) :
    ecEncodeData len srcs matrix.length (ecInitTables matrix) src =
      matrix.map fun row => (List.range len).map fun i =>
        dot row fun j => (src.getD j []).getD i 0 := by
  refine ext_getElem (by simp [ecEncodeData]) fun l left right => ?_
  have bound : l < matrix.length := by simpa [ecEncodeData] using left
  have rowWidth : matrix[l].length = srcs := width _ (getElem_mem bound)
  simp only [ecEncodeData, getElem_map, getElem_range]
  refine map_congr_left fun i _ => ?_
  rw [ecEncodeByte, foldl_add_eq_sum, dot, rowWidth]
  refine Finset.sum_congr rfl fun j mem => ?_
  have column := Finset.mem_range.mp mem
  have entry : (ecInitTables matrix).getD (l * srcs + j) ⟨0, 0, 0, 0⟩
      = gfVectMulInit (matrix[l].getD j 0).byte := by
    have lt : l * srcs + j < matrix.flatten.length := by
      have length : matrix.flatten.length = matrix.length * srcs := by
        rw [length_flatten, map_congr_left width]
        simp
      rw [length]
      calc l * srcs + j < l * srcs + srcs := by omega
        _ = (l + 1) * srcs := by ring
        _ ≤ matrix.length * srcs := Nat.mul_le_mul_right _ bound
    have place := getD_flatten width bound column (0 : GF256)
    rw [getD_eq_getElem?_getD, getElem?_eq_getElem lt, Option.getD_some] at place
    rw [ecInitTables, getD_eq_getElem?_getD, getElem?_map, getElem?_eq_getElem lt, place]
    simp [getElem?_eq_getElem bound]
  rw [entry]
  exact GF256.ext (product_gfVectMulInit _ _)

end LeilFS.Erasure
