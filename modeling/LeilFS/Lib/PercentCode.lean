/-
Module: LeilFS.Lib.PercentCode
Purpose: Bytes written as text in which some of them are escaped by a percent sign and two
  hexadecimal digits, and the scanners that read such text up to a delimiter.
Trusted boundary: none
-/
import Mathlib

namespace PercentCode

/-! ## Hexadecimal digits -/

/-- The digits of the numbers below 16, in capital letters. -/
def hexDigits : List UInt8 :=
  [48, 49, 50, 51, 52, 53, 54, 55, 56, 57, 65, 66, 67, 68, 69, 70]

def hexDigit (n : UInt8) : UInt8 := hexDigits.getD n.toNat 0

/-- The value of a digit. -/
def hexValue (c : UInt8) : Option UInt8 :=
  if 48 ≤ c ∧ c ≤ 57 then some (c - 48)
  else if 65 ≤ c ∧ c ≤ 70 then some (c - 55)
  else none

theorem hexValue_hexDigit {n : UInt8} (digit : n.toNat < 16) : hexValue (hexDigit n) = some n := by
  have all : ∀ i : Fin 16, hexValue (hexDigit (UInt8.ofNat i)) = some (UInt8.ofNat i) := by decide
  have eq : UInt8.ofNat n.toNat = n := UInt8.ofNat_toNat
  rw [← eq]
  exact all ⟨n.toNat, digit⟩

/-! ## Escapes -/

/-- The upper and the lower half of a byte. -/
def upper (b : UInt8) : UInt8 := (b >>> 4) &&& 0xF

def lower (b : UInt8) : UInt8 := b &&& 0xF

theorem upper_toNat (b : UInt8) : (upper b).toNat = b.toNat / 16 := by
  have small := b.toNat_lt
  have mask := Nat.and_two_pow_sub_one_eq_mod (b.toNat >>> 4) 4
  rw [upper, UInt8.toNat_and]
  refine mask.trans ?_
  omega

theorem lower_toNat (b : UInt8) : (lower b).toNat = b.toNat % 16 := by
  rw [lower]
  exact Nat.and_two_pow_sub_one_eq_mod b.toNat 4

theorem upper_mul_add_lower (b : UInt8) : upper b * 16 + lower b = b := by
  have small := b.toNat_lt
  rw [← UInt8.toNat_inj, UInt8.toNat_add, UInt8.toNat_mul, upper_toNat, lower_toNat]
  show (b.toNat / 16 * 16 % 256 + b.toNat % 16) % 256 = b.toNat
  omega

variable (special : UInt8 → Bool)

def encodeByte (b : UInt8) : List UInt8 :=
  if special b then [37, hexDigit (upper b), hexDigit (lower b)] else [b]

/-- The text of some bytes; the special ones are escaped. -/
def encode (bytes : List UInt8) : List UInt8 := bytes.flatMap (encodeByte special)

/-- The byte that a text starts with, and the text behind it. -/
def decodeByte : List UInt8 → Option (UInt8 × List UInt8)
  | [] => none
  | c :: text =>
      if c = 37 then
        match text with
        | high :: low :: rest =>
            match hexValue high, hexValue low with
            | some high, some low => some (high * 16 + low, rest)
            | _, _ => none
        | _ => none
      else some (c, text)

/-- An escape is read back; `%` itself must be escaped. -/
theorem decodeByte_encodeByte {special : UInt8 → Bool} (percent : special 37 = true) (b : UInt8)
    (rest : List UInt8) : decodeByte (encodeByte special b ++ rest) = some (b, rest) := by
  have small := b.toNat_lt
  unfold encodeByte
  split
  · have high := @hexValue_hexDigit (upper b) (by rw [upper_toNat]; omega)
    have low := @hexValue_hexDigit (lower b) (by rw [lower_toNat]; omega)
    simp [decodeByte, high, low, upper_mul_add_lower]
  next plain =>
    have ne : b ≠ 37 := fun eq => plain (eq ▸ percent)
    simp [decodeByte, ne]

/-! ## Scanners -/

/-- The bytes before the first occurrence of a delimiter that is not part of an escape, and the
text from the delimiter on. -/
def scan (delim : UInt8) : List UInt8 → Option (List UInt8 × List UInt8)
  | [] => none
  | c :: text =>
      if c = delim then some ([], c :: text)
      else if c = 37 then
        match text with
        | high :: low :: rest =>
            match hexValue high, hexValue low, scan delim rest with
            | some high, some low, some (bytes, rest) => some ((high * 16 + low) :: bytes, rest)
            | _, _, _ => none
        | _ => none
      else (scan delim text).map fun (bytes, rest) => (c :: bytes, rest)

/-- A scanner that stops after some bytes, whether the delimiter is there or not. -/
def scanAtMost (delim : UInt8) : Nat → List UInt8 → Option (List UInt8 × List UInt8)
  | _, [] => none
  | 0, c :: text => some ([], c :: text)
  | room + 1, c :: text =>
      if c = delim then some ([], c :: text)
      else
        (decodeByte (c :: text)).bind fun (b, rest) =>
          (scanAtMost delim room rest).map fun (bytes, rest) => (b :: bytes, rest)

variable {special : UInt8 → Bool} {delim : UInt8}

theorem scan_delim (rest : List UInt8) : scan delim (delim :: rest) = some ([], delim :: rest) := by
  rw [scan.eq_def]
  exact if_pos rfl

/-- One step of the scanner reads one byte. -/
theorem scan_cons {c : UInt8} (ne : c ≠ delim) (text : List UInt8) : scan delim (c :: text) =
      (decodeByte (c :: text)).bind fun (b, rest) =>
        (scan delim rest).map fun (bytes, rest) => (b :: bytes, rest) := by
  rw [scan.eq_def]
  dsimp only
  rw [if_neg ne, decodeByte.eq_def]
  dsimp only
  by_cases escape : c = 37
  · rw [if_pos escape, if_pos escape]
    split
    next high low rest =>
      cases hexValue high with
      | none => rfl
      | some high =>
        cases hexValue low with
        | none => rfl
        | some low =>
          rw [Option.bind_some]
          cases scan delim rest <;> rfl
    · rfl
  · rw [if_neg escape, if_neg escape]
    rfl

section Escaped

variable (percent : special 37 = true) (escaped : special delim = true) (apart : delim ≠ 37)

include percent escaped apart

/-- The text of a byte is read back, and does not start with the delimiter, which is escaped. -/
theorem encodeByte_starts (b : UInt8) (rest : List UInt8) :
    ∃ c text, encodeByte special b ++ rest = c :: text ∧ c ≠ delim ∧
      decodeByte (c :: text) = some (b, rest) := by
  have back := decodeByte_encodeByte percent b rest
  unfold encodeByte at back ⊢
  split at back
  next special => exact ⟨_, _, if_pos special ▸ rfl, apart.symm, back⟩
  next plain => exact ⟨b, rest, if_neg plain ▸ rfl, fun eq => plain (eq ▸ escaped), back⟩

theorem scan_encode (bytes rest : List UInt8) :
    scan delim (encode special bytes ++ delim :: rest) = some (bytes, delim :: rest) := by
  induction bytes with
  | nil => exact scan_delim rest
  | cons b bytes ih =>
    rw [encode, List.flatMap_cons, List.append_assoc]
    obtain ⟨c, text, starts, other, back⟩ := encodeByte_starts percent escaped apart b
      (bytes.flatMap (encodeByte special) ++ delim :: rest)
    rw [starts, scan_cons other, back]
    exact congrArg (Option.map _) ih

theorem scanAtMost_encode {room : Nat} {bytes : List UInt8} (le : bytes.length ≤ room)
    (rest : List UInt8) :
    scanAtMost delim room (encode special bytes ++ delim :: rest) =
      some (bytes, delim :: rest) := by
  induction bytes generalizing room with
  | nil =>
    cases room with
    | zero => rfl
    | succ room => exact if_pos rfl
  | cons b bytes ih =>
    cases room with
    | zero => simp at le
    | succ room =>
      rw [encode, List.flatMap_cons, List.append_assoc]
      obtain ⟨c, text, starts, other, back⟩ := encodeByte_starts percent escaped apart b
        (bytes.flatMap (encodeByte special) ++ delim :: rest)
      rw [starts, scanAtMost, if_neg other, back]
      exact congrArg (Option.map _) (ih (Nat.le_of_succ_le_succ le))

end Escaped

end PercentCode
