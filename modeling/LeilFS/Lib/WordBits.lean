/-
Module: LeilFS.Lib.WordBits
Purpose: Sets of numbers as bits of a sequence of machine words.
Trusted boundary: none
-/
import Mathlib

namespace WordBits

open BitVec

/-!
Number `i` is bit `i % w` of word `i / w`.  A bit is tested, flipped and set with
the mask of its number.
-/

variable {w : Nat}

/-- Bits that are set are there. -/
theorem or_and_of_and_eq {word more flag : BitVec w} (eq : more &&& flag = flag) :
    (word ||| more) &&& flag = flag := by
  rw [and_or_distrib_right, eq]
  ext i _
  simp only [getElem_or, getElem_and]
  cases flag[i] <;> simp

/-- A word has only bits of another one if none is outside. -/
theorem and_eq_self_iff {word other : BitVec w} :
    word &&& other = word ↔ word &&& ~~~other = 0 := by
  constructor
  · intro eq
    rw [← eq, BitVec.and_assoc, BitVec.and_not_self]
    exact BitVec.and_zero
  · intro none
    have split : word &&& other ||| word &&& ~~~other = word := by
      rw [← and_or_distrib_left, or_not_self, and_allOnes]
    rw [none] at split
    exact or_zero.symm.trans split

/-- The bit of a number; numbers behind the last word have none. -/
def bit (words : List (BitVec w)) (i : Nat) : Bool :=
  match words[i / w]? with
  | some word => word.getLsbD (i % w)
  | none => false

/-- The word with only the bit of a number. -/
def mask (w i : Nat) : BitVec w := 1#w <<< (i % w)

variable {i : Nat} {words : List (BitVec w)} {word : BitVec w}

theorem bit_of_getElem?
    (found : words[i / w]? = some word) : bit words i = word.getLsbD (i % w) := by
  simp [bit, found]

theorem getLsbD_mask (pos : 0 < w) (i j : Nat) : (mask w i).getLsbD j = decide (i % w = j) := by
  have inside := Nat.mod_lt i pos
  rw [mask, ← twoPow_eq]
  simp [inside]

theorem and_mask_ne_zero_iff (pos : 0 < w) (word : BitVec w) (i : Nat) :
    word &&& mask w i ≠ 0#w ↔ word.getLsbD (i % w) = true := by
  have inside := Nat.mod_lt i pos
  rw [mask, ← twoPow_eq, and_twoPow]
  cases bitAt : word.getLsbD (i % w) with
  | false => simp
  | true =>
    simp only [iff_true]
    intro zero
    have := congrArg (fun v => v.getLsbD (i % w)) zero
    simp [inside] at this

/-- The word with the lowest `r` bits. -/
theorem toNat_lowMask {r : Nat} (lt : r < w) : ((1#w <<< r) - 1#w).toNat = 2 ^ r - 1 := by
  have power : 2 ^ r < 2 ^ w := Nat.pow_lt_pow_right (by decide) lt
  have one : (1#w).toNat = 1 := by
    rw [toNat_ofNat, Nat.mod_eq_of_lt (Nat.one_lt_two_pow (by omega))]
  have shifted : (1#w <<< r).toNat = 2 ^ r := by
    rw [toNat_shiftLeft, one, Nat.one_shiftLeft, Nat.mod_eq_of_lt power]
  have le : 1#w ≤ 1#w <<< r := by
    rw [le_def, one, shifted]
    exact Nat.one_le_two_pow
  rw [toNat_sub_of_le le, one, shifted]

theorem getLsbD_lowMask {r : Nat} (lt : r < w) (i : Nat) :
    ((1#w <<< r) - 1#w).getLsbD i = decide (i < r) := by
  rw [getLsbD, toNat_lowMask lt, Nat.testBit_two_pow_sub_one]

theorem toNat_and_lowMask {r : Nat} (lt : r < w) (word : BitVec w) :
    (word &&& ((1#w <<< r) - 1#w)).toNat = word.toNat % 2 ^ r := by
  rw [toNat_and, toNat_lowMask lt, Nat.and_two_pow_sub_one_eq_mod]

theorem bit_set (lt : i / w < words.length) (word : BitVec w) (j : Nat) :
    bit (words.set (i / w) word) j =
      if j / w = i / w then word.getLsbD (j % w) else bit words j := by
  unfold bit
  rw [List.getElem?_set]
  by_cases eq : i / w = j / w
  · rw [if_pos eq, if_pos (eq ▸ lt), if_pos eq.symm]
  · rw [if_neg eq, if_neg (Ne.symm eq)]

/-- A word that differs in one bit. -/
theorem bit_set_update (found : words[i / w]? = some word) {word' : BitVec w} {value : Bool}
    (here : word'.getLsbD (i % w) = value)
    (others : ∀ r, r ≠ i % w → word'.getLsbD r = word.getLsbD r) :
    bit (words.set (i / w) word') = Function.update (bit words) i value := by
  have lt : i / w < words.length := (List.getElem?_eq_some_iff.mp found).1
  funext j
  rw [bit_set lt, Function.update_apply]
  by_cases eq : j / w = i / w
  · rw [if_pos eq, bit_of_getElem? (eq ▸ found)]
    by_cases rest : j % w = i % w
    · rw [if_pos (Nat.ext_div_mod eq rest), rest, here]
    · rw [if_neg fun equal => rest (by rw [equal]), others _ rest]
  · rw [if_neg eq, if_neg fun equal => eq (by rw [equal])]

/-- Flipping one bit. -/
theorem bit_set_xor_mask (pos : 0 < w) (found : words[i / w]? = some word) :
    bit (words.set (i / w) (word ^^^ mask w i)) = Function.update (bit words) i (!bit words i) := by
  rw [bit_of_getElem? found]
  refine bit_set_update found ?_ fun r other => ?_
  · simp [getLsbD_mask pos]
  · simp [getLsbD_mask pos, other.symm]

/-- Setting one bit. -/
theorem bit_set_or_mask (pos : 0 < w) (found : words[i / w]? = some word) :
    bit (words.set (i / w) (word ||| mask w i)) = Function.update (bit words) i true := by
  refine bit_set_update found ?_ fun r other => ?_
  · simp [getLsbD_mask pos]
  · simp [getLsbD_mask pos, other.symm]

/-- Some word with a number's bit is not zero. -/
theorem exists_word_of_bit (set : bit words i = true) :
    ∃ word, words[i / w]? = some word ∧ word ≠ 0#w := by
  unfold bit at set
  split at set
  next word found =>
    refine ⟨word, found, ?_⟩
    rintro rfl
    simp at set
  · cases set

/-!
Search around a ring of `n` places, which gives up when it comes back to where it
started.
-/

/-- The next place of a ring. -/
def ringNext (n position : Nat) : Nat := if n ≤ position + 1 then 0 else position + 1

/-- The first place from `position` on that is wanted. -/
def ringSearch (wanted : Nat → Bool) (n start : Nat) : Nat → Nat → Option Nat
  | 0, _ => none
  | fuel + 1, position =>
      if wanted position then some position
      else if ringNext n position = start then none
      else ringSearch wanted n start fuel (ringNext n position)

theorem ringNext_mod {n start k : Nat} (pos : 0 < n) :
    ringNext n ((start + k) % n) = (start + (k + 1)) % n := by
  have inside := Nat.mod_lt (start + k) pos
  rw [ringNext, ← Nat.add_assoc, ← Nat.mod_add_mod (start + k) n 1]
  split
  · rw [show (start + k) % n + 1 = n by omega, Nat.mod_self]
  · rw [Nat.mod_eq_of_lt (by omega : (start + k) % n + 1 < n)]

/-- All places are visited before the search gives up. -/
theorem ringSearch_found {wanted : Nat → Bool} {n start : Nat} (lt : start < n) (target : i < n)
    (isWanted : wanted i = true) :
    ∃ p, ringSearch wanted n start n start = some p ∧ p < n ∧ wanted p = true := by
  have pos : 0 < n := by omega
  -- After `k` steps the search is at `start + k`, and what it has passed is unwanted.
  have search : ∀ fuel k, fuel + k = n →
      (∀ j < k, wanted ((start + j) % n) = false) →
      ∃ p, ringSearch wanted n start fuel ((start + k) % n) = some p ∧ p < n ∧ wanted p = true := by
    intro fuel
    induction fuel with
    | zero =>
      intro k whole passed
      obtain rfl : k = n := by omega
      have reached : ∃ j < k, (start + j) % k = i := by
        rcases Nat.lt_or_ge i start with prev | after
        · refine ⟨i + k - start, by omega, ?_⟩
          rw [show start + (i + k - start) = i + k by omega, Nat.add_mod_right,
            Nat.mod_eq_of_lt target]
        · exact ⟨i - start, by omega, by
            rw [show start + (i - start) = i by omega, Nat.mod_eq_of_lt target]⟩
      obtain ⟨j, below, eq⟩ := reached
      have := passed j below
      rw [eq, isWanted] at this
      cases this
    | succ fuel ih =>
      intro k whole passed
      rw [ringSearch]
      cases here : wanted ((start + k) % n) with
      | true => exact ⟨_, rfl, Nat.mod_lt _ pos, here⟩
      | false =>
        have passedMore : ∀ j < k + 1, wanted ((start + j) % n) = false := by
          intro j below
          rcases Nat.lt_succ_iff_lt_or_eq.mp below with old | rfl
          · exact passed j old
          · exact here
        obtain ⟨p, found, result⟩ := ih (k + 1) (by omega) passedMore
        rw [ringNext_mod pos]
        rw [if_neg (by simp), if_neg]
        · exact ⟨p, found, result⟩
        · intro back
          -- Back at the start although something is wanted.
          have full : k + 1 = n := by
            rcases Nat.lt_or_ge (start + (k + 1)) n with inRing | wrapped
            · rw [Nat.mod_eq_of_lt inRing] at back
              omega
            · rw [Nat.mod_eq_sub_mod wrapped, Nat.mod_eq_of_lt (by omega)] at back
              omega
          obtain rfl : fuel = 0 := by omega
          simp [ringSearch] at found
  have initial : start % n = start := Nat.mod_eq_of_lt lt
  simpa [initial] using search n 0 rfl fun j below => absurd below (Nat.not_lt_zero j)

end WordBits
