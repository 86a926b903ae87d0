/-
Module: LeilFS.Chunks.GoalCounters
Purpose: The counters of the files that refer to a chunk, one count for each goal.
Trusted boundary: none
-/
import LeilFS.Lib.SortedSeq

namespace LeilFS.Chunks

open List

/-!
A chunk counts the files that refer to it, separately for every goal.  The counters
stand in one vector that is sorted by goals.  A counter holds at most 255, and a goal
that needs more has several counters; the one that is not full stands first
[SPEC chunk_goal_counters.h:46-99, chunk_goal_counters.cc:42-110].
-/

/-- The number of a goal. -/
abbrev GoalId := UInt8

/-- [SPEC goal.h:441-463] -/
def GoalId.isValid (goal : GoalId) : Bool :=
  1 ≤ goal && goal ≤ 40

structure GoalCounter where
  goal : GoalId
  count : UInt8
deriving Repr, DecidableEq

/-- `max_size` of the vector of counters [SPEC compact_vector.h:198-280]. -/
def maxCounters : Nat := 2 ^ 20 - 1

/-- What the exceptions of the counters say. -/
inductive InvalidOperation where
  | addNonExistent (goal : GoalId)
  | noMoreSpace
  | removeNonExistent (goal : GoalId)
deriving Repr, DecidableEq

/-! ## The vector of counters -/

namespace GoalCounter

/-- The order of the vector: only the first counter of a goal may have room. -/
def Precedes (a b : GoalCounter) : Prop :=
  a.goal < b.goal ∨ a.goal = b.goal ∧ b.count = 255

theorem Precedes.goal_le {a b : GoalCounter} (h : Precedes a b) : a.goal ≤ b.goal := by
  rcases h with less | ⟨eq, -⟩
  · exact UInt8.le_of_lt less
  · exact eq ▸ UInt8.le_refl _

/-- The vector is sorted, and every counter counts something. -/
structure Canonical (counters : List GoalCounter) : Prop where
  ordered : counters.Pairwise Precedes
  positive : ∀ counter ∈ counters, counter.count ≠ 0

/-- `lower_bound` of a goal. -/
def lowerBound (goal : GoalId) (counters : List GoalCounter) : Nat :=
  SortedSeq.partitionPoint (·.goal < goal) counters

/-- The counters before `lower_bound`. -/
def below (goal : GoalId) (counters : List GoalCounter) : List GoalCounter :=
  counters.take (lowerBound goal counters)

/-- The counters from `lower_bound` on. -/
def above (goal : GoalId) (counters : List GoalCounter) : List GoalCounter :=
  counters.drop (lowerBound goal counters)

/-- What the counters of a goal add up to. -/
def total (goal : GoalId) (counters : List GoalCounter) : Nat :=
  (counters.map fun counter => if counter.goal = goal then counter.count.toNat else 0).sum

variable {goal other : GoalId} {counters counters' before after : List GoalCounter}
  {counter : GoalCounter}

theorem below_append_above (goal : GoalId) (counters : List GoalCounter) :
    below goal counters ++ above goal counters = counters :=
  take_append_drop _ _

theorem goal_lt_of_mem_below (mem : counter ∈ below goal counters) : counter.goal < goal := by
  simpa using SortedSeq.before_of_mem_take mem

theorem goal_le_of_mem_above (ordered : counters.Pairwise Precedes)
    (mem : counter ∈ above goal counters) : goal ≤ counter.goal := by
  have partitioned : counters.Pairwise fun a b =>
      decide (b.goal < goal) = true → decide (a.goal < goal) = true :=
    ordered.imp fun precedes => by
      simpa using fun less => UInt8.lt_of_le_of_lt precedes.goal_le less
  simpa using SortedSeq.not_before_of_mem_drop partitioned mem

@[simp] theorem total_nil (goal : GoalId) : total goal [] = 0 := rfl

@[simp] theorem total_cons (goal : GoalId) (counter : GoalCounter) (counters : List GoalCounter) :
    total goal (counter :: counters) =
      (if counter.goal = goal then counter.count.toNat else 0) + total goal counters := by
  simp [total]

@[simp] theorem total_append (goal : GoalId) (before after : List GoalCounter) :
    total goal (before ++ after) = total goal before + total goal after := by
  simp [total]

theorem total_eq_zero_iff (pos : ∀ counter ∈ counters, counter.count ≠ 0) :
    total goal counters = 0 ↔ ∀ counter ∈ counters, counter.goal ≠ goal := by
  induction counters with
  | nil => simp
  | cons counter counters ih =>
    have counts : counter.count.toNat ≠ 0 := fun zero =>
      pos counter mem_cons_self (UInt8.toNat_inj.mp (by simpa using zero))
    have rest := ih fun c mem => pos c (mem_cons_of_mem _ mem)
    rw [total_cons, Nat.add_eq_zero_iff, rest]
    by_cases eq : counter.goal = goal <;> simp [counts]

/-- The count of a goal stands from `lower_bound` on. -/
theorem total_eq_above (goal : GoalId) (counters : List GoalCounter) :
    total goal counters = total goal (above goal counters) := by
  have nothing : total goal (below goal counters) = 0 := by
    rw [total, sum_eq_zero]
    intro n mem
    obtain ⟨counter, found, rfl⟩ := mem_map.mp mem
    exact if_neg (UInt8.ne_of_lt (goal_lt_of_mem_below found))
  conv_lhs => rw [← below_append_above goal counters, total_append, nothing, Nat.zero_add]

/-- A first counter of the goal with room for one more. -/
def grows (goal : GoalId) (counters : List GoalCounter) : Bool :=
  (above goal counters).head?.any fun first => first.goal = goal && first.count ≠ 255

/-- `*lower_bound` is replaced. -/
def replaceFirst (goal : GoalId) (f : GoalCounter → List GoalCounter)
    (counters : List GoalCounter) : List GoalCounter :=
  below goal counters ++ (above goal counters).head?.elim [] f ++ (above goal counters).tail

/-- A new counter is put before `lower_bound`. -/
def insert (goal : GoalId) (counters : List GoalCounter) : List GoalCounter :=
  below goal counters ++ ⟨goal, 1⟩ :: above goal counters

variable {f : GoalCounter → List GoalCounter} {count : UInt8}
  (found : (above goal counters).head? = some counter)

include found in
/-- The counters around a first counter of the goal. -/
theorem split_of_head :
    counters = below goal counters ++ counter :: (above goal counters).tail := by
  rw [← eq_cons_of_mem_head? found, below_append_above]

include found in
theorem replaceFirst_of_head : replaceFirst goal f counters =
      below goal counters ++ f counter ++ (above goal counters).tail := by
  rw [replaceFirst, found]
  rfl

namespace Canonical

variable (canonical : Canonical counters)
include canonical

include found in
/-- A counter gets another count. -/
theorem recount (eq : counter.goal = goal)
    (recounted : f counter = [⟨goal, count⟩]) (pos : count ≠ 0) :
    Canonical (replaceFirst goal f counters) := by
  rw [replaceFirst_of_head found, recounted]
  have ordered := canonical.ordered
  rw [split_of_head found, pairwise_append, pairwise_cons] at ordered
  obtain ⟨first, ⟨next, rest⟩, between⟩ := ordered
  constructor
  · rw [append_assoc, singleton_append, pairwise_append, pairwise_cons]
    refine ⟨first, ⟨fun c mem => ?_, rest⟩, fun a inBelow b inRest => ?_⟩
    · rcases next c mem with less | ⟨equal, full⟩
      · exact .inl (eq ▸ less)
      · exact .inr ⟨eq ▸ equal, full⟩
    · rcases mem_cons.mp inRest with rfl | later
      · exact .inl (goal_lt_of_mem_below inBelow)
      · exact between a inBelow b (mem_cons_of_mem _ later)
  · intro c mem
    have old : c ∈ below goal counters ∨ c ∈ (above goal counters).tail → c.count ≠ 0 := by
      intro place
      refine canonical.positive c ?_
      rw [split_of_head found]
      rcases place with left | right
      · exact mem_append_left _ left
      · exact mem_append_right _ (mem_cons_of_mem _ right)
    rw [append_assoc, singleton_append, mem_append, mem_cons] at mem
    rcases mem with left | rfl | right
    · exact old (.inl left)
    · exact pos
    · exact old (.inr right)

include found in
/-- A counter is taken out. -/
theorem erase (gone : f counter = []) : Canonical (replaceFirst goal f counters) := by
  have sublist : (replaceFirst goal f counters).Sublist counters := by
    rw [replaceFirst_of_head found, gone, append_nil]
    conv_rhs => rw [split_of_head found]
    exact List.Sublist.append_left (sublist_cons_self _ _) _
  exact ⟨canonical.ordered.sublist sublist, fun c mem => canonical.positive c (sublist.subset mem)⟩

/-- A new counter comes first when the others of its goal are full. -/
theorem insert (full : grows goal counters = false) : Canonical (insert goal counters) := by
  have ordered := canonical.ordered
  rw [← below_append_above goal counters, pairwise_append] at ordered
  obtain ⟨first, rest, between⟩ := ordered
  constructor
  · rw [GoalCounter.insert, pairwise_append, pairwise_cons]
    refine ⟨first, ⟨fun c mem => ?_, rest⟩, fun a inBelow b inRest => ?_⟩
    · rcases UInt8.lt_or_eq_of_le (goal_le_of_mem_above canonical.ordered mem) with less | eq
      · exact .inl less
      refine .inr ⟨eq, ?_⟩
      cases start : above goal counters with
      | nil => simp [start] at mem
      | cons head tail =>
        have closed : head.goal = goal → head.count = 255 := by
          simpa [grows, start] using full
        rw [start] at mem rest
        rcases mem_cons.mp mem with rfl | later
        · exact closed eq.symm
        rcases (pairwise_cons.mp rest).1 c later with less | ⟨-, count⟩
        · have reached := goal_le_of_mem_above canonical.ordered
            (start ▸ mem_cons_self : head ∈ above goal counters)
          exact absurd (eq ▸ reached) (UInt8.not_le.mpr less)
        · exact count
    · rcases mem_cons.mp inRest with rfl | later
      · exact .inl (goal_lt_of_mem_below inBelow)
      · exact between a inBelow b later
  · intro c mem
    have old : c ∈ counters → c.count ≠ 0 := canonical.positive c
    rw [GoalCounter.insert, mem_append, mem_cons] at mem
    rw [← below_append_above goal counters, mem_append] at old
    rcases mem with left | rfl | right
    · exact old (.inl left)
    · exact (by decide : (1 : UInt8) ≠ 0)
    · exact old (.inr right)

end Canonical

theorem total_insert (goal other : GoalId) (counters : List GoalCounter) :
    total other (insert goal counters) = total other counters + if goal = other then 1 else 0 := by
  conv_rhs => rw [← below_append_above goal counters]
  rw [insert, total_append, total_append, total_cons]
  rcases eq_or_ne goal other with eq | ne
  · rw [if_pos eq, if_pos eq, UInt8.toNat_one]
    omega
  · rw [if_neg ne, if_neg ne]
    omega

include found in
theorem total_replaceFirst (other : GoalId) :
    total other (replaceFirst goal f counters) + total other [counter] =
      total other counters + total other (f counter) := by
  conv_rhs => rw [split_of_head found]
  rw [replaceFirst_of_head found]
  simp only [total_append, total_cons, total_nil]
  omega

include found in
theorem length_replaceFirst (short : (f counter).length ≤ 1) :
    (replaceFirst goal f counters).length ≤ counters.length := by
  conv_rhs => rw [split_of_head found]
  rw [replaceFirst_of_head found]
  simp only [length_append, length_cons]
  omega

theorem add_one_toNat (low : count ≠ 255) : (count + 1).toNat = count.toNat + 1 := by
  have bound := UInt8.toNat_lt count
  have below : count.toNat ≠ 255 := fun top => low (UInt8.toNat_inj.mp (by simpa using top))
  rw [UInt8.toNat_add, UInt8.toNat_one]
  omega

theorem add_one_ne_zero (low : count ≠ 255) : count + 1 ≠ 0 := by
  intro zero
  have := congrArg UInt8.toNat zero
  rw [add_one_toNat low] at this
  simp at this

theorem sub_one_toNat (pos : count ≠ 0) : (count - 1).toNat + 1 = count.toNat := by
  have bound := UInt8.toNat_lt count
  have above : count.toNat ≠ 0 := fun zero => pos (UInt8.toNat_inj.mp (by simpa using zero))
  rw [UInt8.toNat_sub, UInt8.toNat_one]
  omega

/-- What `addFile` does to a counter with room. -/
def increment (goal : GoalId) (first : GoalCounter) : List GoalCounter :=
  [⟨goal, first.count + 1⟩]

/-- What `removeFile` does to the first counter of the goal. -/
def decrement (goal : GoalId) (first : GoalCounter) : List GoalCounter :=
  if first.count - 1 = 0 then [] else [⟨goal, first.count - 1⟩]

/-- The first counter from `lower_bound` on is one of the goal. -/
def holds (goal : GoalId) (counters : List GoalCounter) : Bool :=
  (above goal counters).head?.any fun first => first.goal = goal

theorem exists_of_any {p : GoalCounter → Bool} (any : (above goal counters).head?.any p = true) :
    ∃ first, (above goal counters).head? = some first ∧ p first = true := by
  cases found : (above goal counters).head? with
  | none => simp [found] at any
  | some first => exact ⟨first, rfl, by simpa [found] using any⟩

/-- A counter of the goal is there when the goal is counted. -/
theorem holds_eq_true_iff (canonical : Canonical counters) :
    holds goal counters = true ↔ 0 < total goal counters := by
  have pos : ∀ c ∈ above goal counters, c.count ≠ 0 := fun c mem =>
    canonical.positive c (mem_of_mem_drop mem)
  rw [Nat.pos_iff_ne_zero, total_eq_above, Ne, total_eq_zero_iff pos, holds]
  cases start : above goal counters with
  | nil => simp
  | cons first rest =>
    have reached : ∀ c ∈ first :: rest, goal ≤ c.goal := fun c mem =>
      goal_le_of_mem_above canonical.ordered (start ▸ mem)
    have sorted : (first :: rest).Pairwise Precedes :=
      start ▸ canonical.ordered.sublist (drop_sublist _ _)
    constructor
    · intro here absent
      exact absent first mem_cons_self (by simpa using here)
    · intro there
      push Not at there
      obtain ⟨c, mem, eq⟩ := there
      have least : first.goal ≤ goal := by
        rcases mem_cons.mp mem with rfl | later
        · exact eq ▸ UInt8.le_refl _
        · exact eq ▸ ((pairwise_cons.mp sorted).1 c later).goal_le
      simpa using UInt8.le_antisymm least (reached first mem_cons_self)

/-- All counters of the goal but the first are full. -/
theorem total_mod (full : ∀ c ∈ counters, c.goal = goal → c.count = 255) :
    total goal counters % 255 = 0 := by
  induction counters with
  | nil => rfl
  | cons c counters ih =>
    have rest := ih fun d mem => full d (mem_cons_of_mem _ mem)
    rw [total_cons]
    split
    · rw [full c mem_cons_self ‹_›]
      simp [rest]
    · simpa using rest

theorem Canonical.tail (canonical : Canonical (counter :: counters)) : Canonical counters :=
  ⟨(pairwise_cons.mp canonical.ordered).2,
    fun c mem => canonical.positive c (mem_cons_of_mem _ mem)⟩

theorem Canonical.total_lt (canonical : Canonical (counter :: counters))
    (less : goal < counter.goal) : total goal (counter :: counters) = 0 := by
  refine (total_eq_zero_iff canonical.positive).mpr fun c mem => ?_
  rcases mem_cons.mp mem with rfl | later
  · exact (UInt8.ne_of_lt less).symm
  · have reached := ((pairwise_cons.mp canonical.ordered).1 c later).goal_le
    exact (UInt8.ne_of_lt (UInt8.lt_of_lt_of_le less reached)).symm

theorem Canonical.total_head (canonical : Canonical (counter :: counters)) :
    ∃ k, total counter.goal (counter :: counters) = counter.count.toNat + 255 * k ∧
      0 < counter.count.toNat ∧ counter.count.toNat ≤ 255 := by
  have rest : total counter.goal counters % 255 = 0 := total_mod fun c mem eq => by
    rcases (pairwise_cons.mp canonical.ordered).1 c mem with less | ⟨-, full⟩
    · exact absurd eq (UInt8.ne_of_lt less).symm
    · exact full
  have counts : counter.count.toNat ≠ 0 := fun zero =>
    canonical.positive counter mem_cons_self (UInt8.toNat_inj.mp (by simpa using zero))
  have bound := UInt8.toNat_lt counter.count
  refine ⟨total counter.goal counters / 255, ?_, by omega, by omega⟩
  rw [total_cons, if_pos rfl]
  omega

/-- The counts of the goals determine the vector. -/
theorem Canonical.eq_of_total (canonical : Canonical counters) (canonical' : Canonical counters')
    (eq : ∀ goal, total goal counters = total goal counters') : counters = counters' := by
  induction counters generalizing counters' with
  | nil =>
    cases counters' with
    | nil => rfl
    | cons c rest =>
      obtain ⟨k, total, pos, -⟩ := canonical'.total_head
      have := eq c.goal
      rw [total_nil] at this
      omega
  | cons c rest ih =>
    obtain ⟨k, total, pos, bound⟩ := canonical.total_head
    cases counters' with
    | nil =>
      have := eq c.goal
      rw [total_nil] at this
      omega
    | cons d rest' =>
      obtain ⟨l, total', pos', bound'⟩ := canonical'.total_head
      have goals : c.goal = d.goal := by
        by_contra ne
        rcases UInt8.lt_or_lt_of_ne ne with less | greater
        · have := eq c.goal ▸ canonical'.total_lt less
          omega
        · have := (eq d.goal).symm ▸ canonical.total_lt greater
          omega
      have counts : c.count.toNat = d.count.toNat := by
        have := eq c.goal
        rw [total, goals] at this
        omega
      obtain rfl : c = d := by
        cases c
        simp_all [UInt8.toNat_inj]
      rw [ih canonical.tail canonical'.tail fun goal => by simpa using eq goal]

end GoalCounter

/-! ## The counters of a chunk -/

/-- [SPEC chunk_goal_counters.h:46-99] -/
structure ChunkGoalCounters where
  counters : List GoalCounter
  canonical : GoalCounter.Canonical counters
  fits : counters.length ≤ maxCounters
deriving DecidableEq

namespace ChunkGoalCounters

open GoalCounter

/-- A chunk that no file refers to. -/
def empty : ChunkGoalCounters where
  counters := []
  canonical := ⟨List.Pairwise.nil, by simp⟩
  fits := Nat.zero_le _

/-- [SPEC chunk_goal_counters.cc:44-74] -/
def addFile (cs : ChunkGoalCounters) (goal : GoalId) : Except InvalidOperation ChunkGoalCounters :=
  if goal.isValid then
    if room : grows goal cs.counters = true then
      .ok {
        counters := replaceFirst goal (increment goal) cs.counters
        canonical := by
          obtain ⟨first, found, fit⟩ := exists_of_any room
          obtain ⟨same, low⟩ : first.goal = goal ∧ first.count ≠ 255 := by simpa using fit
          exact cs.canonical.recount found same rfl (add_one_ne_zero low)
        fits := by
          obtain ⟨first, found, -⟩ := exists_of_any room
          exact (length_replaceFirst found (by simp [increment])).trans cs.fits }
    else if full : cs.counters.length = maxCounters then
      .error .noMoreSpace
    else
      .ok {
        counters := GoalCounter.insert goal cs.counters
        canonical := cs.canonical.insert (by simpa using room)
        fits := by
          have := cs.fits
          have length := congrArg List.length (below_append_above goal cs.counters)
          simp only [GoalCounter.insert, List.length_append, List.length_cons] at length ⊢
          omega }
  else
    .error (.addNonExistent goal)

/-- [SPEC chunk_goal_counters.cc:76-89] -/
def removeFile (cs : ChunkGoalCounters) (goal : GoalId) :
    Except InvalidOperation ChunkGoalCounters :=
  if there : holds goal cs.counters = true then
    .ok {
      counters := replaceFirst goal (decrement goal) cs.counters
      canonical := by
        obtain ⟨first, found, same⟩ := exists_of_any there
        by_cases last : first.count - 1 = 0
        · exact cs.canonical.erase found (if_pos last)
        · exact cs.canonical.recount found (by simpa using same) (if_neg last) last
      fits := by
        obtain ⟨first, found, -⟩ := exists_of_any there
        refine (length_replaceFirst found ?_).trans cs.fits
        unfold decrement
        split <;> simp }
  else
    .error (.removeNonExistent goal)

/-- [SPEC chunk_goal_counters.cc:91-94] A goal that cannot be added has the
other one removed already. -/
def changeFileGoal (cs : ChunkGoalCounters) (prevGoal newGoal : GoalId) :
    ChunkGoalCounters × Option InvalidOperation :=
  match cs.removeFile prevGoal with
  | .error e => (cs, some e)
  | .ok removed =>
      match removed.addFile newGoal with
      | .error e => (removed, some e)
      | .ok added => (added, none)

/-- [SPEC chunk_goal_counters.cc:96-102] -/
def fileCount (cs : ChunkGoalCounters) : Nat :=
  (cs.counters.map fun counter => counter.count.toNat).sum

/-- The number of files with a goal. -/
def count (cs : ChunkGoalCounters) (goal : GoalId) : Nat :=
  total goal cs.counters

/-- A file with the goal can be counted without exceeding the size of the vector. -/
def hasRoom (cs : ChunkGoalCounters) (goal : GoalId) : Bool :=
  grows goal cs.counters || cs.counters.length < maxCounters

variable {cs cs' : ChunkGoalCounters} {goal : GoalId}

@[simp] theorem count_empty (goal : GoalId) : empty.count goal = 0 := rfl

theorem count_addFile (added : cs.addFile goal = .ok cs') (other : GoalId) :
    cs'.count other = cs.count other + if goal = other then 1 else 0 := by
  unfold addFile at added
  split at added
  · split at added
    next room =>
      obtain rfl := Except.ok.inj added
      obtain ⟨first, found, fit⟩ := exists_of_any room
      obtain ⟨eq, low⟩ : first.goal = goal ∧ first.count ≠ 255 := by simpa using fit
      have moved := total_replaceFirst (f := increment goal) found other
      simp only [increment, total_cons, add_one_toNat low, eq] at moved
      simp only [count]
      rcases eq_or_ne goal other with equal | ne
      · simp only [if_pos equal] at moved ⊢
        omega
      · simp only [if_neg ne] at moved ⊢
        omega
    · split at added
      · cases added
      · obtain rfl := Except.ok.inj added
        exact total_insert goal other cs.counters
  · cases added

theorem count_removeFile (gone : cs.removeFile goal = .ok cs') (other : GoalId) :
    cs'.count other + (if goal = other then 1 else 0) = cs.count other := by
  unfold removeFile at gone
  split at gone
  next there =>
    obtain rfl := Except.ok.inj gone
    obtain ⟨first, found, fit⟩ := exists_of_any there
    have eq : first.goal = goal := by simpa using fit
    have counted : first.count ≠ 0 :=
      cs.canonical.positive first (mem_of_mem_drop (mem_of_mem_head? found))
    have moved := total_replaceFirst (f := decrement goal) found other
    have kept : total other (decrement goal first) + (if goal = other then 1 else 0) =
        total other [first] := by
      have one := sub_one_toNat counted
      unfold decrement
      split
      · simp only [total_nil]
        split <;> simp_all
      · simp only [total_cons, eq]
        split <;> omega
    simp only [count]
    omega
  · cases gone

theorem eq_of_count (eq : ∀ goal, cs.count goal = cs'.count goal) : cs = cs' := by
  have := cs.canonical.eq_of_total cs'.canonical eq
  cases cs
  cases this
  rfl

theorem addFile_ok_iff : (∃ cs', cs.addFile goal = .ok cs') ↔
    goal.isValid = true ∧ cs.hasRoom goal = true := by
  have bound := cs.fits
  unfold addFile hasRoom
  split_ifs <;> simp_all
  omega

theorem removeFile_ok_iff : (∃ cs', cs.removeFile goal = .ok cs') ↔ 0 < cs.count goal := by
  rw [count, ← holds_eq_true_iff cs.canonical, removeFile]
  split <;> simp [*]

variable {prevGoal newGoal : GoalId}

theorem changeFileGoal_ok_iff : (∃ cs', cs.changeFileGoal prevGoal newGoal = (cs', none)) ↔
    ∃ gone, cs.removeFile prevGoal = .ok gone ∧
      newGoal.isValid = true ∧ gone.hasRoom newGoal = true := by
  simp only [← addFile_ok_iff, changeFileGoal]
  cases first : cs.removeFile prevGoal with
  | error e => simp
  | ok gone => cases second : gone.addFile newGoal <;> simp [second]

theorem count_changeFileGoal (changed : cs.changeFileGoal prevGoal newGoal = (cs', none))
    (goal : GoalId) :
    cs'.count goal + (if prevGoal = goal then 1 else 0) =
      cs.count goal + if newGoal = goal then 1 else 0 := by
  unfold changeFileGoal at changed
  split at changed
  · cases changed
  rename_i gone first
  split at changed
  · cases changed
  rename_i added second
  obtain rfl : added = cs' := congrArg Prod.fst changed
  have := count_removeFile first goal
  have := count_addFile second goal
  omega

theorem count_changeFileGoal_le (cs : ChunkGoalCounters) (prevGoal newGoal goal : GoalId) :
    (cs.changeFileGoal prevGoal newGoal).1.count goal ≤ cs.count goal + 1 := by
  unfold changeFileGoal
  split
  · exact Nat.le_succ _
  rename_i gone first
  have := count_removeFile first goal
  split
  · exact (Nat.le_of_add_right_le this.le).trans (Nat.le_succ _)
  next added second =>
    have added := count_addFile second goal
    dsimp only
    split at added <;> omega

/-- A goal that was taken from a file has room to come back. -/
theorem hasRoom_of_count (counted : ∀ goal, cs'.count goal =
    cs.count goal + if newGoal = goal then 1 else 0) : cs.hasRoom newGoal = true := by
  cases room : grows newGoal cs.counters with
  | true => simp [hasRoom, room]
  | false =>
    have eq := (cs.canonical.insert room).eq_of_total cs'.canonical fun goal =>
      (total_insert newGoal goal _).trans (counted goal).symm
    have length := congrArg length (below_append_above newGoal cs.counters)
    have fits := eq ▸ cs'.fits
    simp only [GoalCounter.insert, length_append, length_cons] at length fits
    simp only [hasRoom, Bool.or_eq_true, decide_eq_true_eq]
    omega

/-- A change can be taken back. -/
theorem changeFileGoal_back (ne : prevGoal ≠ newGoal) (h : prevGoal.isValid = true)
    (changed : cs.changeFileGoal prevGoal newGoal = (cs', none)) :
    cs'.changeFileGoal newGoal prevGoal = (cs, none) := by
  have counts := count_changeFileGoal changed
  have counted : 0 < cs'.count newGoal := by
    have := counts newGoal
    rw [if_pos rfl, if_neg ne] at this
    omega
  obtain ⟨gone, first⟩ := removeFile_ok_iff.mpr counted
  have counts' (goal : GoalId) : cs.count goal =
      gone.count goal + if prevGoal = goal then 1 else 0 := by
    have := counts goal
    have := count_removeFile first goal
    omega
  obtain ⟨added, second⟩ := addFile_ok_iff.mpr ⟨h, hasRoom_of_count counts'⟩
  obtain rfl : added = cs := eq_of_count fun goal =>
    (count_addFile second goal).trans (counts' goal).symm
  simp [changeFileGoal, first, second]

/-! ## Sequences of calls -/

/-- The calls that change the counters. -/
inductive Call where
  | addFile (goal : GoalId)
  | removeFile (goal : GoalId)
  | changeFileGoal (prevGoal newGoal : GoalId)
deriving Repr, DecidableEq

namespace Call

/-- The goal that a call adds a file with. -/
def adds : Call → Option GoalId
  | addFile goal | changeFileGoal _ goal => some goal
  | removeFile _ => none

/-- The goal that a call removes a file with. -/
def removes : Call → Option GoalId
  | removeFile goal | changeFileGoal goal _ => some goal
  | addFile _ => none

/-- A call succeeds. -/
def Does (cs cs' : ChunkGoalCounters) : Call → Prop
  | addFile goal => cs.addFile goal = .ok cs'
  | removeFile goal => cs.removeFile goal = .ok cs'
  | changeFileGoal prevGoal newGoal => cs.changeFileGoal prevGoal newGoal = (cs', none)

/-- A sequence of calls that all succeed. -/
inductive Run : ChunkGoalCounters → List Call → ChunkGoalCounters → Prop
  | nil (cs : ChunkGoalCounters) : Run cs [] cs
  | cons {cs next cs' : ChunkGoalCounters} {call : Call} {calls : List Call}
      (first : call.Does cs next) (rest : Run next calls cs') : Run cs (call :: calls) cs'

variable {call : Call} {calls : List Call}

theorem Does.count (done : call.Does cs cs') (goal : GoalId) :
    cs'.count goal + (if call.removes = some goal then 1 else 0) =
      cs.count goal + if call.adds = some goal then 1 else 0 := by
  cases call with
  | addFile added => simpa [adds, removes] using count_addFile done goal
  | removeFile gone => simpa [adds, removes] using count_removeFile done goal
  | changeFileGoal prevGoal newGoal => simpa [adds, removes] using count_changeFileGoal done goal

theorem Run.count (done : Run cs calls cs') (goal : GoalId) :
    cs'.count goal + calls.countP (·.removes = some goal) =
      cs.count goal + calls.countP (·.adds = some goal) := by
  induction done with
  | nil => rfl
  | cons first rest ih =>
    have := first.count goal
    simp only [countP_cons, decide_eq_true_eq]
    omega

/-- The files that are added and not removed. -/
def balance (calls : List Call) (goal : GoalId) : Int :=
  calls.countP (·.adds = some goal) - calls.countP (·.removes = some goal)

/-- Each goal counts what was added and not removed, no counter is zero, and the vector is the
same for all sequences of calls that come to the same goals. -/
theorem run_exact (done : Run empty calls cs) :
    (∀ goal, cs.count goal = balance calls goal) ∧
    (∀ counter ∈ cs.counters, counter.count ≠ 0) ∧
    ∀ calls' cs', Run empty calls' cs' → balance calls' = balance calls →
      cs'.counters = cs.counters := by
  have counted {calls : List Call} {cs : ChunkGoalCounters} (done : Run empty calls cs)
      (goal : GoalId) : cs.count goal = balance calls goal := by
    have := done.count goal
    rw [count_empty] at this
    unfold balance
    omega
  refine ⟨counted done, cs.canonical.positive, fun calls' cs' done' same => ?_⟩
  have counts (goal : GoalId) : cs'.count goal = cs.count goal := by
    have := counted done goal
    have := counted done' goal
    have := congrFun same goal
    omega
  rw [eq_of_count counts]

/-- Two files are added and one of them gets another goal. -/
theorem run_exact_changed :
    ∃ cs, Run empty [.addFile 2, .addFile 2, .changeFileGoal 2 3] cs ∧ (cs.count 2 : Int) = 1 :=
  have done : Run empty [.addFile 2, .addFile 2, .changeFileGoal 2 3] _ :=
    .cons rfl (.cons rfl (.cons rfl (.nil _)))
  ⟨_, done, (run_exact done).1 2⟩

end Call

end ChunkGoalCounters

end LeilFS.Chunks
