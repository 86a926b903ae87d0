/-
Module: LeilFS.Nodes.LogNames
Purpose: Names, paths and values in the lines of the changelog: how the master writes them and
  how a shadow and the recovery read them.
Trusted boundary: none
-/
import LeilFS.Lib.PercentCode
import LeilFS.Nodes.Operations

namespace LeilFS.Nodes

/-- The characters that are written as an escape, where `char` is signed
[SPEC filesystem_node.cc:287-290]. -/
def isEscaped (chr : UInt8) : Bool :=
  chr.toInt8 < 32 || 127 ≤ chr.toInt8 || chr = 44 || chr = 37 || chr = 40 || chr = 41

/-- [SPEC filesystem_node.cc:270-307] -/
def escapeName (name : Name) : List UInt8 := PercentCode.encode isEscaped name

/-- `GETNAME`: a buffer of 256 characters takes at most 255 of them
[SPEC restore.cc:48-79]. -/
def getName (separator : UInt8) (line : List UInt8) : Option (Name × List UInt8) :=
  PercentCode.scanAtMost separator 255 line

/-- `GETDATA`: the characters, whose number is the length that is returned
[SPEC restore.cc:145-195]. -/
def getData (separator : UInt8) (line : List UInt8) : Option (List UInt8 × List UInt8) :=
  PercentCode.scan separator line

/-- `GETPATH`: what is written to the buffer, a zero at its end included
[SPEC restore.cc:81-143]. -/
def getPath (separator : UInt8) (line : List UInt8) : Option (List UInt8 × List UInt8) :=
  (PercentCode.scan separator line).map fun (path, rest) => (path ++ [0], rest)

/-- The string that a buffer holds. -/
def cString (buffer : List UInt8) : Name := buffer.takeWhile (· ≠ 0)

/-- The characters that end a field of a line. -/
inductive Separator where
  | comma | parenthesis
deriving Repr, DecidableEq

def Separator.char : Separator → UInt8
  | .comma => 44
  | .parenthesis => 41

theorem isEscaped_percent : isEscaped 37 = true := by decide

theorem Separator.isEscaped_char (separator : Separator) : isEscaped separator.char = true := by
  cases separator <;> decide

theorem Separator.char_ne_percent (separator : Separator) : separator.char ≠ 37 := by
  cases separator <;> decide

theorem cString_append {path : Name} (plain : 0 ∉ path) : cString (path ++ [0]) = path := by
  have all : ∀ b ∈ path, decide (b ≠ 0) = true := fun b mem =>
    decide_eq_true fun zero => plain (zero ▸ mem)
  rw [cString, List.takeWhile_append_of_pos all]
  simp

theorem length_le_of_nameCheck {name : Name} (ok : nameCheck name = true) :
    name.length ≤ maxFileNameLength := by
  unfold nameCheck at ok
  simp only [Bool.and_eq_true, decide_eq_true_eq] at ok
  exact ok.1.1.1.2

/-- Every name that is accepted, every path without a zero and every value is read as it was
written, and reading stops at the separator behind it. -/
theorem escaped_names_read_back (separator : Separator) (line : List UInt8) :
    (∀ name, nameCheck name = true →
      getName separator.char (escapeName name ++ separator.char :: line) =
        some (name, separator.char :: line)) ∧
    (∀ path, 0 ∉ path →
      (getPath separator.char (escapeName path ++ separator.char :: line)).map
          (fun read => (cString read.1, read.2)) = some (path, separator.char :: line)) ∧
    ∀ value,
      getData separator.char (escapeName value ++ separator.char :: line) =
        some (value, separator.char :: line) := by
  have scans : ∀ value, PercentCode.scan separator.char
      (escapeName value ++ separator.char :: line) = some (value, separator.char :: line) :=
    fun value => PercentCode.scan_encode isEscaped_percent separator.isEscaped_char
      separator.char_ne_percent value line
  refine ⟨fun name accepted => ?_, fun path plain => ?_, scans⟩
  · exact PercentCode.scanAtMost_encode isEscaped_percent separator.isEscaped_char
      separator.char_ne_percent (length_le_of_nameCheck accepted) line
  · rw [getPath, scans, Option.map_some, Option.map_some, cString_append plain]

/-- The name `a,b` with a byte above 127, a path and a value, before `)` and `,`. -/
theorem escaped_names_read_back_comma :
    getName 41 (escapeName [97, 44, 98, 200] ++ [41, 58, 55]) =
        some ([97, 44, 98, 200], [41, 58, 55]) ∧
      (getPath 44 (escapeName [47, 37, 41] ++ [44, 48])).map
          (fun read => (cString read.1, read.2)) = some ([47, 37, 41], [44, 48]) ∧
      getData 44 (escapeName [0, 255] ++ [44, 48]) = some ([0, 255], [44, 48]) :=
  ⟨(escaped_names_read_back .parenthesis [58, 55]).1 _ (by decide),
    (escaped_names_read_back .comma [48]).2.1 _ (by decide),
    (escaped_names_read_back .comma [48]).2.2 _⟩

example : escapeName [97, 44, 200] = [97, 37, 50, 67, 37, 67, 56] := by decide

end LeilFS.Nodes
