/-
Module: LeilFS.Lib.LogText
Purpose: Text that is written and read again: decimal numbers, fields that end with a
  delimiter, and sets of flags as letters.
Trusted boundary: none
-/
import Mathlib

namespace LogText

open List

/-! ## Numbers -/

/-- A number in decimal digits. -/
def number (n : Nat) : List Char := Nat.toDigits 10 n

/-- The number at the start of a text, and the text behind it; without digits it is 0 and the
text stays. -/
def scanNumber (text : List Char) : Nat × List Char :=
  (Nat.ofDigitChars 10 (text.takeWhile Char.isDigit) 0, text.dropWhile Char.isDigit)

theorem isDigit_of_mem_number {n : Nat} {c : Char} (mem : c ∈ number n) : c.isDigit = true :=
  Nat.isDigit_of_mem_toDigits (by decide) (by decide) mem

theorem not_mem_number {n : Nat} {c : Char} (eq : c.isDigit = false) : c ∉ number n := by
  intro mem
  rw [isDigit_of_mem_number mem] at eq
  cases eq

theorem number_ne_nil (n : Nat) : number n ≠ [] := Nat.toDigits_ne_nil

/-- A number is read up to where its digits end. -/
theorem scanNumber_number (n : Nat) {rest : List Char}
    (ends : ∀ c ∈ rest.head?, c.isDigit = false) : scanNumber (number n ++ rest) = (n, rest) := by
  have digits : ∀ c ∈ number n, c.isDigit = true := fun c mem => isDigit_of_mem_number mem
  have stops : rest.takeWhile Char.isDigit = [] ∧ rest.dropWhile Char.isDigit = rest := by
    cases rest with
    | nil => exact ⟨rfl, rfl⟩
    | cons c rest =>
      have stop := ends c rfl
      exact ⟨by simp [stop], by simp [stop]⟩
  have value : Nat.ofDigitChars 10 (number n) 0 = n :=
    Nat.ofDigitChars_toDigits (by decide) (by decide)
  unfold scanNumber
  rw [takeWhile_append_of_pos digits, dropWhile_append_of_pos digits, stops.1, stops.2,
    append_nil, value]

/-! ## Fields -/

/-- The text before the first occurrence of a delimiter, and the text behind it. -/
def upTo (delim : Char) : List Char → Option (List Char × List Char)
  | [] => none
  | c :: text =>
      if c = delim then some ([], text)
      else (upTo delim text).map fun (field, rest) => (c :: field, rest)

theorem upTo_append {delim : Char} {field : List Char} (absent : delim ∉ field) (rest : List Char) :
    upTo delim (field ++ delim :: rest) = some (field, rest) := by
  induction field with
  | nil => simp [upTo]
  | cons c field ih =>
    rw [mem_cons, not_or] at absent
    rw [cons_append, upTo, if_neg (Ne.symm absent.1), ih absent.2]
    rfl

/-- The value of a hexadecimal digit, in capital letters. -/
def hexDigit (c : Char) : Option Nat :=
  if c.isDigit then some (c.toNat - '0'.toNat)
  else if 'A' ≤ c ∧ c ≤ 'F' then some (c.toNat - 'A'.toNat + 10)
  else none

/-- The text before the first occurrence of a delimiter, and the text behind it.  After a percent
sign two hexadecimal digits stand for a character. -/
def scanPath (delim : Char) : List Char → Option (List Char × List Char)
  | [] => none
  | c :: text =>
      if c = delim then some ([], text)
      else if c = '%' then
        match text with
        | high :: low :: rest =>
            match hexDigit high, hexDigit low, scanPath delim rest with
            | some high, some low, some (path, rest) =>
                some (Char.ofNat (16 * high + low) :: path, rest)
            | _, _, _ => none
        | _ => none
      else (scanPath delim text).map fun (path, rest) => (c :: path, rest)

theorem scanPath_cons {delim c : Char} (ne : c ≠ delim) (plain : c ≠ '%') (text : List Char) :
    scanPath delim (c :: text) = (scanPath delim text).map fun (path, rest) =>
      (c :: path, rest) := by
  rw [scanPath.eq_def]
  dsimp only
  rw [if_neg ne, if_neg plain]

theorem scanPath_append {delim : Char} {path : List Char} (absent : delim ∉ path)
    (plain : '%' ∉ path) (rest : List Char) :
    scanPath delim (path ++ delim :: rest) = some (path, rest) := by
  induction path with
  | nil =>
    rw [scanPath.eq_def]
    exact if_pos rfl
  | cons c path ih =>
    rw [mem_cons, not_or] at absent plain
    rw [cons_append, scanPath_cons (Ne.symm absent.1) (Ne.symm plain.1), ih absent.2 plain.2]
    rfl

theorem scanPath_eq_none {delim : Char} {text : List Char} (absent : delim ∉ text)
    (plain : '%' ∉ text) : scanPath delim text = none := by
  induction text with
  | nil => rfl
  | cons c text ih =>
    rw [mem_cons, not_or] at absent plain
    rw [scanPath_cons (Ne.symm absent.1) (Ne.symm plain.1), ih absent.2 plain.2]
    rfl

/-- A text without the character that it starts with. -/
def eat (c : Char) : List Char → Option (List Char)
  | first :: text => if first = c then some text else none
  | [] => none

@[simp] theorem eat_cons (c : Char) (text : List Char) : eat c (c :: text) = some text := by
  simp [eat]

theorem subset_of_eat {c : Char} {text rest : List Char} (eaten : eat c text = some rest) :
    rest ⊆ text := by
  cases text with
  | nil => cases eaten
  | cons first text =>
    rw [eat] at eaten
    split at eaten
    · cases eaten
      exact subset_cons_self _ _
    · cases eaten

/-- A text without the word that it starts with. -/
def eatWord : List Char → List Char → Option (List Char)
  | [], text => some text
  | c :: word, text => (eat c text).bind (eatWord word)

theorem eatWord_append (word text : List Char) : eatWord word (word ++ text) = some text := by
  induction word with
  | nil => rfl
  | cons c word ih => simp [eatWord, ih]

theorem subset_of_eatWord {word text rest : List Char} (eaten : eatWord word text = some rest) :
    rest ⊆ text := by
  induction word generalizing text with
  | nil =>
    cases eaten
    exact List.Subset.refl _
  | cons c word ih =>
    obtain ⟨middle, first, later⟩ := Option.bind_eq_some_iff.mp eaten
    exact List.Subset.trans (ih later) (subset_of_eat first)

theorem subset_of_scanNumber (text : List Char) : (scanNumber text).2 ⊆ text :=
  (dropWhile_sublist _).subset

/-! ## Flags as letters -/

section Flags

variable {w : Nat}

/-- The letters of the flags that are set; a flag is written once. -/
def writeFlags : List (BitVec w × Char) → BitVec w → List Char
  | [], _ => []
  | (bit, letter) :: table, flags =>
      if flags &&& bit ≠ 0 then letter :: writeFlags table (flags &&& ~~~bit)
      else writeFlags table flags

/-- Letters in the order of the table; the rest of the text is left. -/
def readInOrder : List (BitVec w × Char) → List Char → BitVec w → List Char × BitVec w
  | [], text, flags => (text, flags)
  | _ :: _, [], flags => ([], flags)
  | (bit, letter) :: table, c :: text, flags =>
      if c = letter then readInOrder table text (flags ||| bit)
      else readInOrder table (c :: text) flags

/-- The flag of a letter. -/
def letterFlag (table : List (BitVec w × Char)) (c : Char) : Option (BitVec w) :=
  (table.find? fun row => row.2 = c).map (·.1)

/-- Letters in any order. -/
def readAnyOrder (table : List (BitVec w × Char)) : List Char → BitVec w → Option (BitVec w)
  | [], flags => some flags
  | c :: text, flags =>
      match letterFlag table c with
      | some bit => readAnyOrder table text (flags ||| bit)
      | none => none

/-- The flags of some letters: first as they are written, then in any order. -/
def readFlags (table : List (BitVec w × Char)) (text : List Char) : Option (BitVec w) :=
  let (rest, flags) := readInOrder table text 0
  readAnyOrder table rest flags

/-- The flags of a table. -/
def allFlags (table : List (BitVec w × Char)) : BitVec w :=
  table.foldr (fun row flags => row.1 ||| flags) 0

/-- Every row has one bit, and rows with one letter have one flag. -/
structure Alphabet (table : List (BitVec w × Char)) : Prop where
  single : ∀ row ∈ table, ∃ k < w, row.1 = BitVec.twoPow w k
  letters : ∀ row ∈ table, letterFlag table row.2 = some row.1

/-- The flags that letters stand for. -/
def flagsOf (table : List (BitVec w × Char)) (text : List Char) : BitVec w :=
  text.foldr (fun c flags => (letterFlag table c).getD 0 ||| flags) 0

variable {table : List (BitVec w × Char)} {rows : List (BitVec w × Char)}

/-- Letters of a table are read, in whatever order. -/
theorem readAnyOrder_eq {text : List Char}
    (known : ∀ c ∈ text, (letterFlag table c).isSome = true) (flags : BitVec w) :
    readAnyOrder table text flags = some (flags ||| flagsOf table text) := by
  induction text generalizing flags with
  | nil => simp [readAnyOrder, flagsOf]
  | cons c text ih =>
    obtain ⟨bit, found⟩ := Option.isSome_iff_exists.mp (known c mem_cons_self)
    rw [readAnyOrder, found]
    dsimp only
    rw [ih (fun other mem => known other (mem_cons_of_mem _ mem)), BitVec.or_assoc]
    simp [flagsOf, found]

/-- Reading in order takes letters off with their flags. -/
theorem readInOrder_flagsOf (letters : ∀ row ∈ rows, letterFlag table row.2 = some row.1)
    (text : List Char) (flags : BitVec w) : ((readInOrder rows text flags).1 <:+ text) ∧
      (readInOrder rows text flags).2 ||| flagsOf table (readInOrder rows text flags).1 =
        flags ||| flagsOf table text := by
  induction rows generalizing text flags with
  | nil => exact ⟨suffix_refl _, rfl⟩
  | cons row rows ih =>
    have rest := fun other mem => letters other (mem_cons_of_mem row mem)
    cases text with
    | nil => exact ⟨suffix_refl _, rfl⟩
    | cons c text =>
      obtain ⟨bit, letter⟩ := row
      rw [readInOrder]
      split
      next eq =>
        obtain ⟨suffix, value⟩ := ih rest text (flags ||| bit)
        refine ⟨suffix.trans (suffix_cons _ _), ?_⟩
        have found : letterFlag table c = some bit := eq ▸ letters (bit, letter) mem_cons_self
        rw [value, BitVec.or_assoc]
        simp [flagsOf, found]
      · exact ih rest (c :: text) flags

theorem readFlags_eq (h : Alphabet table) {text : List Char}
    (known : ∀ c ∈ text, (letterFlag table c).isSome = true) :
    readFlags table text = some (flagsOf table text) := by
  obtain ⟨suffix, value⟩ := readInOrder_flagsOf h.letters text 0
  unfold readFlags
  dsimp only
  rw [readAnyOrder_eq fun c mem => known c (suffix.subset mem), value]
  simp

/-- One bit is set or not. -/
theorem and_twoPow_of_ne_zero {flags : BitVec w} {k : Nat} (set : flags &&& BitVec.twoPow w k ≠ 0) :
    flags &&& BitVec.twoPow w k = BitVec.twoPow w k := by
  rw [BitVec.and_twoPow] at set ⊢
  split at set
  next bit => rw [if_pos bit]
  · exact absurd rfl set

/-- Written letters stand for the flags of the table that are set. -/
theorem flagsOf_writeFlags {table rows : List (BitVec w × Char)}
    (single : ∀ row ∈ rows, ∃ k < w, row.1 = BitVec.twoPow w k)
    (letters : ∀ row ∈ rows, letterFlag table row.2 = some row.1) (flags : BitVec w) :
    flagsOf table (writeFlags rows flags) = flags &&& allFlags rows ∧
      ∀ c ∈ writeFlags rows flags, (letterFlag table c).isSome = true := by
  induction rows generalizing flags with
  | nil => simp [writeFlags, flagsOf, allFlags]
  | cons row rows ih =>
    obtain ⟨bit, letter⟩ := row
    have found : letterFlag table letter = some bit := letters (bit, letter) mem_cons_self
    have rest := fun flags => ih (fun other mem => single other (mem_cons_of_mem _ mem))
      (fun other mem => letters other (mem_cons_of_mem _ mem)) flags
    have all : allFlags ((bit, letter) :: rows) = bit ||| allFlags rows := rfl
    rw [writeFlags]
    split
    next here =>
      have whole : flags &&& bit = bit := by
        obtain ⟨k, _, isBit⟩ := single (bit, letter) mem_cons_self
        rw [show bit = BitVec.twoPow w k from isBit] at here ⊢
        exact and_twoPow_of_ne_zero here
      obtain ⟨value, known⟩ := rest (flags &&& ~~~bit)
      refine ⟨?_, ?_⟩
      · have cons : flagsOf table (letter :: writeFlags rows (flags &&& ~~~bit)) =
            bit ||| flagsOf table (writeFlags rows (flags &&& ~~~bit)) := by
          simp [flagsOf, found]
        rw [cons, value, all, BitVec.and_or_distrib_left, whole]
        ext i inside
        simp only [BitVec.getElem_or, BitVec.getElem_and, BitVec.getElem_not]
        cases bit[i] <;> simp
      · intro c mem
        rcases mem_cons.mp mem with rfl | later
        · rw [found]
          rfl
        · exact known c later
    next absent =>
      obtain ⟨value, known⟩ := rest flags
      rw [not_not] at absent
      refine ⟨?_, known⟩
      rw [value, all, BitVec.and_or_distrib_left, absent]
      exact (BitVec.zero_or).symm

/-- What is written is read, as far as the table has letters for it. -/
theorem readFlags_writeFlags (h : Alphabet table) (flags : BitVec w) :
    readFlags table (writeFlags table flags) = some (flags &&& allFlags table) := by
  obtain ⟨value, known⟩ := flagsOf_writeFlags h.single h.letters flags
  rw [readFlags_eq h known, value]

/-- Written letters come from the table. -/
theorem mem_of_mem_writeFlags {flags : BitVec w} {c : Char}
    (mem : c ∈ writeFlags rows flags) : ∃ row ∈ rows, row.2 = c := by
  induction rows generalizing flags with
  | nil => simp [writeFlags] at mem
  | cons row rows ih =>
    rw [writeFlags] at mem
    split at mem
    · rcases mem_cons.mp mem with rfl | later
      · exact ⟨_, mem_cons_self, rfl⟩
      · obtain ⟨row, inside, eq⟩ := ih later
        exact ⟨row, mem_cons_of_mem _ inside, eq⟩
    · obtain ⟨row, inside, eq⟩ := ih mem
      exact ⟨row, mem_cons_of_mem _ inside, eq⟩

end Flags

end LogText
