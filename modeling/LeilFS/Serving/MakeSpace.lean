/-
Module: LeilFS.Serving.MakeSpace
Purpose: A chunkserver makes space on a disk by removing the oldest files from its trash, and
  when this comes to an end.
Trusted boundary: none
-/
import Mathlib

namespace LeilFS.Serving

open List

/-- An entry of the trash index of a disk. -/
structure TrashFile where
  deletionTime : ℤ
  filePath : String
deriving Repr, DecidableEq

/-- The space that each check finds, and whether each attempt to remove a file succeeds. -/
structure DiskAnswers where
  checkAvailableSpace : ℕ → ℕ
  removeFileFromTrash : ℕ → Bool

/-- The trash index of a disk, oldest first, and how many answers were given. -/
structure TrashDisk where
  index : List TrashFile
  checks : ℕ
  attempts : ℕ

/-- [SPEC chunk_trash_index.cc:107-119] A step size of zero takes all files. -/
def getOlderFiles (index : List TrashFile) (removalStepSize : ℕ) : List TrashFile :=
  if removalStepSize = 0 then index else index.take removalStepSize

namespace TrashDisk

/-- [SPEC chunk_trash_manager_impl.cc:247-293] The worker tries one file after the other. -/
def removeTrashFiles (answers : DiskAnswers) (d : TrashDisk) (files : List TrashFile) : TrashDisk :=
  files.foldl (fun d file =>
    { d with
      index := if answers.removeFileFromTrash d.attempts then d.index.erase file else d.index
      attempts := d.attempts + 1 }) d

/-- The condition under which the loop is left [SPEC chunk_trash_manager_impl.cc:388-391]. -/
def leavesLoop (answers : DiskAnswers) (spaceAvailabilityThreshold recoveryStep : ℕ)
    (d : TrashDisk) : Bool :=
  decide (spaceAvailabilityThreshold ≤ answers.checkAvailableSpace d.checks) ||
    (getOlderFiles d.index recoveryStep).isEmpty

/-- One iteration of the loop [SPEC chunk_trash_manager_impl.cc:390-394]. -/
def makeSpace (answers : DiskAnswers) (recoveryStep : ℕ) (d : TrashDisk) : TrashDisk :=
  let removed := d.removeTrashFiles answers (getOlderFiles d.index recoveryStep)
  { removed with checks := d.checks + 1 }

end TrashDisk

/-- How many of the first attempts succeed. -/
def DiskAnswers.removals (answers : DiskAnswers) (attempts : ℕ) : ℕ :=
  (range attempts).countP answers.removeFileFromTrash

namespace TrashDisk

variable {answers : DiskAnswers} {d : TrashDisk} {threshold recoveryStep files : ℕ}

theorem removals_succ (n : ℕ) : answers.removals (n + 1) =
    answers.removals n + (answers.removeFileFromTrash n).toNat := by
  unfold DiskAnswers.removals
  rw [range_succ, countP_append, countP_singleton]
  cases answers.removeFileFromTrash n <;> rfl

/-- Every file is still listed, or an attempt to remove it succeeded. -/
def Accounts (answers : DiskAnswers) (files : ℕ) (d : TrashDisk) : Prop :=
  d.index.length + answers.removals d.attempts = files

theorem Accounts.removeTrashFiles (h : d.Accounts answers files) {older : List TrashFile}
    (listed : older <+~ d.index) : (d.removeTrashFiles answers older).Accounts answers files ∧
      (d.removeTrashFiles answers older).attempts = d.attempts + older.length := by
  induction older generalizing d with
  | nil => exact ⟨h, rfl⟩
  | cons file older ih =>
    have mem : file ∈ d.index := listed.subset mem_cons_self
    have some := length_pos_of_mem mem
    rw [length_cons, Nat.add_comm older.length, ← Nat.add_assoc]
    refine ih ?_ ?_
    · unfold Accounts at h ⊢
      dsimp only
      rw [removals_succ]
      cases answers.removeFileFromTrash d.attempts with
      | true =>
        rw [if_pos rfl, length_erase_of_mem mem, Bool.toNat_true]
        omega
      | false => simpa using h
    · dsimp only
      split_ifs
      · simpa using listed.erase file
      · exact (sublist_cons_self file older).subperm.trans listed

theorem getOlderFiles_spec (index : List TrashFile) (recoveryStep : ℕ) :
    getOlderFiles index recoveryStep <+~ index ∧
      (getOlderFiles index recoveryStep = [] ↔ index = []) := by
  unfold getOlderFiles
  split_ifs with all
  · exact ⟨Subperm.refl _, Iff.rfl⟩
  · exact ⟨(take_sublist _ _).subperm, by simp [all]⟩

/-- After some iterations there have been as many checks, and at least as many attempts unless
nothing is left. -/
theorem iterate_makeSpace (answers : DiskAnswers) (recoveryStep : ℕ) (index : List TrashFile)
    (n : ℕ) :
    let d := (makeSpace answers recoveryStep)^[n] ⟨index, 0, 0⟩
    d.Accounts answers index.length ∧ d.checks = n ∧ (n ≤ d.attempts ∨ d.index = []) := by
  induction n with
  | zero => simp [Accounts, DiskAnswers.removals]
  | succ n ih =>
    rw [Function.iterate_succ_apply']
    generalize (makeSpace answers recoveryStep)^[n] ⟨index, 0, 0⟩ = d at ih ⊢
    obtain ⟨accounts, checks, tried⟩ := ih
    obtain ⟨subperm, empty⟩ := getOlderFiles_spec d.index recoveryStep
    obtain ⟨accounts', attempts⟩ := accounts.removeTrashFiles subperm
    refine ⟨accounts', congrArg (· + 1) checks, ?_⟩
    by_cases none : d.index = []
    · right
      rw [makeSpace, empty.mpr none]
      exact none
    · left
      have some := length_pos_iff.mpr (mt empty.mp none)
      have prev := tried.resolve_right none
      exact (by omega : n + 1 ≤ _).trans_eq attempts.symm

/-- Making space comes to an end exactly when some check finds enough space, or as many attempts
succeed as there are files. -/
theorem makeSpace_ends_iff (answers : DiskAnswers) (threshold recoveryStep : ℕ)
    (index : List TrashFile) :
    (∃ n, ((makeSpace answers recoveryStep)^[n] ⟨index, 0, 0⟩).leavesLoop answers threshold
        recoveryStep) ↔
      (∃ n, threshold ≤ answers.checkAvailableSpace n) ∨
        ∃ n, index.length ≤ answers.removals n := by
  have leaves (d : TrashDisk) : d.leavesLoop answers threshold recoveryStep ↔
      threshold ≤ answers.checkAvailableSpace d.checks ∨ d.index = [] := by
    simp [leavesLoop, (getOlderFiles_spec d.index recoveryStep).2]
  simp only [leaves]
  constructor
  · rintro ⟨n, enough | none⟩
    · exact .inl ⟨_, enough⟩
    · have accounts := (iterate_makeSpace answers recoveryStep index n).1
      rw [Accounts, none, length_nil, Nat.zero_add] at accounts
      exact .inr ⟨_, accounts.ge⟩
  · rintro (⟨n, enough⟩ | ⟨n, removed⟩) <;>
      obtain ⟨accounts, checks, tried⟩ := iterate_makeSpace answers recoveryStep index n
    · exact ⟨n, .inl (checks.symm ▸ enough)⟩
    · refine ⟨n, .inr (tried.elim (fun attempts => ?_) id)⟩
      have mono : Monotone answers.removals :=
        monotone_nat_of_le_succ fun n => by simp [removals_succ]
      have := mono attempts
      unfold Accounts at accounts
      exact length_eq_zero_iff.mp (by omega)

/-- A file that cannot be removed, on a disk without space. -/
theorem makeSpace_never_ends :
    let answers : DiskAnswers := ⟨fun _ => 0, fun _ => false⟩
    ¬ ∃ n, ((makeSpace answers 100)^[n] ⟨[⟨0, "a"⟩], 0, 0⟩).leavesLoop answers 1 100 := by
  rintro answers ⟨n, leaves⟩
  have accounts := (iterate_makeSpace answers 100 [⟨0, "a"⟩] n).1
  have nothing (n : ℕ) : answers.removals n = 0 := countP_eq_zero.mpr fun _ _ => Bool.false_ne_true
  have empty := (getOlderFiles_spec _ _).2.mp (by simpa [leavesLoop, answers] using leaves)
  rw [Accounts, empty, nothing] at accounts
  cases accounts

end TrashDisk

end LeilFS.Serving
