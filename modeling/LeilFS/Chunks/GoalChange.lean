/-
Module: LeilFS.Chunks.GoalChange
Purpose: References of files to chunks together with the statistics of all chunks,
  and the change of the goal of a file over all of its chunks.
Trusted boundary: none
-/
import LeilFS.Chunks.Chunk

namespace LeilFS.Chunks

open ChunkGoalCounters Option

/-!
A chunk leaves the statistics before its counters change and enters them again when it
has been evaluated anew.  An exception of the counters comes between the two
[SPEC chunks.cc:361-392, 425-471, 534-566].
-/

/-- What a chunk keeps of its last evaluation beside its availability. -/
structure Evaluation where
  missingParts : Nat
  redundantParts : Nat
  fullCopies : Nat
  copiesInStats : Nat
deriving Repr, DecidableEq

/-- How the master evaluates a chunk. -/
structure Evaluator where
  env : Environment
  evaluate : Chunk → Evaluation

/-- A chunk as the statistics count it. -/
structure Counted where
  chunk : Chunk
  evaluation : Evaluation

/-- [SPEC chunks.cc:304-308, chunks_availability_state.h:78-190] -/
structure Statistics where
  availability : AvailabilityState → GoalId → UInt64
  toReplicate : GoalId → Nat → UInt64
  toDelete : GoalId → Nat → UInt64
  fullChunkCopies : Nat → Nat → UInt64

namespace Statistics

/-- The counts of a chunk move by `d`. -/
def shift (d : UInt64) (c : Counted) (s : Statistics) : Statistics :=
  let counts (goal : GoalId) : Bool := goal ∈ c.chunk.goalCounters.counters.map (·.goal)
  { availability := fun state goal => s.availability state goal +
      if state = c.chunk.allAvailabilityState && counts goal then d else 0
    toReplicate := fun goal n => s.toReplicate goal n +
      if n = min 10 c.evaluation.missingParts && counts goal then d else 0
    toDelete := fun goal n => s.toDelete goal n +
      if n = min 10 c.evaluation.redundantParts && counts goal then d else 0
    fullChunkCopies := fun goal all => s.fullChunkCopies goal all +
      if goal = min 10 c.evaluation.copiesInStats && all = min 10 c.evaluation.fullCopies
      then d else 0 }

def removeFromStats : Counted → Statistics → Statistics := shift (-1)

def addToStats : Counted → Statistics → Statistics := shift 1

/-- A chunk that has left is missing at least in the matrix of the copies. -/
theorem removeFromStats_ne (c : Counted) (s : Statistics) : removeFromStats c s ≠ s := by
  intro eq
  have entry := congrFun (congrFun (congrArg fullChunkCopies eq)
    (min 10 c.evaluation.copiesInStats)) (min 10 c.evaluation.fullCopies)
  have : (-1 : UInt64) ≠ 0 := by decide
  simp [removeFromStats, shift, this] at entry

end Statistics

/-- The chunks by their numbers, and the statistics. -/
@[ext] structure Census where
  find : ChunkId → Option Counted
  stats : Statistics

/-- What happens to the references to a chunk. -/
inductive Reference where
  | add (goal : GoalId)
  | delete (goal : GoalId)
  | change (prevGoal newGoal : GoalId)
deriving Repr, DecidableEq

namespace Reference

/-- The chunk after the change of its counters. -/
def apply (env : Environment) : Reference → Chunk → Chunk × Status
  | add goal => Chunk.addFile env goal
  | delete goal => Chunk.deleteFile env goal
  | change prevGoal newGoal => Chunk.changeFileGoal env prevGoal newGoal

/-- A change to the same goal is none. -/
def isIdle : Reference → Bool
  | change prevGoal newGoal => prevGoal = newGoal
  | _ => false

/-- The counters can follow, and the goal that is taken away is not lost. -/
def Possible (counters : ChunkGoalCounters) : Reference → Prop
  | add goal => goal.isValid = true ∧ counters.hasRoom goal = true
  | delete goal => 0 < counters.count goal
  | change prevGoal newGoal => ∃ removed, counters.removeFile prevGoal = .ok removed ∧
      newGoal.isValid = true ∧ removed.hasRoom newGoal = true

theorem apply_ok_iff (env : Environment) (r : Reference) (c : Chunk) :
    (r.apply env c).2 = .ok ↔ r.Possible c.goalCounters := by
  cases r with
  | add goal =>
    rw [Possible, ← addFile_ok_iff, apply, Chunk.addFile]
    cases c.goalCounters.addFile goal <;> simp
  | delete goal =>
    rw [Possible, ← ChunkGoalCounters.removeFile_ok_iff, apply, Chunk.deleteFile]
    cases c.goalCounters.removeFile goal <;> simp
  | change prevGoal newGoal =>
    rw [Possible, ← changeFileGoal_ok_iff, apply, Chunk.changeFileGoal]
    rcases c.goalCounters.changeFileGoal prevGoal newGoal with ⟨_, _ | _⟩ <;> simp

end Reference

namespace Census

/-- `chunk_add_file`, `chunk_delete_file` and `chunk_change_file`
[SPEC chunks.cc:1069-1134]. -/
def update (e : Evaluator) (r : Reference) (id : ChunkId) (census : Census) : Census × Status :=
  if r.isIdle then (census, .ok)
  else match census.find id with
    | none => (census, .noChunk)
    | some c =>
        let stats := census.stats.removeFromStats c
        match r.apply e.env c.chunk with
        | (chunk, .ok) =>
            let c' : Counted := ⟨chunk, e.evaluate chunk⟩
            (⟨Function.update census.find id (some c'), stats.addToStats c'⟩, .ok)
        | (chunk, status) =>
            (⟨Function.update census.find id (some { c with chunk := chunk }), stats⟩, status)

def change (e : Evaluator) (prevGoal newGoal : GoalId) : ChunkId → Census → Census × Status :=
  update e (.change prevGoal newGoal)

/-- The chunks of a file one after the other, until one cannot be changed: the chunks
done, and the answer. -/
def changeFiles (e : Evaluator) (oldGoal goal : GoalId) :
    List ChunkId → Census → Census × List ChunkId × Status
  | [], census => (census, [], .ok)
  | id :: ids, census =>
      match census.change e oldGoal goal id with
      | (census, .ok) =>
          let (census, done, status) := changeFiles e oldGoal goal ids census
          (census, id :: done, status)
      | (census, status) => (census, [], status)

/-- The chunks done get their old goal back; failures are only logged. -/
def rollBack (e : Evaluator) (oldGoal goal : GoalId) (done : List ChunkId)
    (census : Census) : Census :=
  done.foldl (fun census id => (census.change e goal oldGoal id).1) census

/-- `checks` are the checks before the loop.
[SPEC filesystem_node.cc:1661-1698] -/
def changeFileGoal (e : Evaluator) (checks : Status) (oldGoal goal : GoalId)
    (ids : List ChunkId) (census : Census) : Census × Status :=
  if checks ≠ .ok then (census, checks)
  else match census.changeFiles e oldGoal goal ids with
    | (census, _, .ok) => (census, .ok)
    | (census, done, status) => (census.rollBack e oldGoal goal done, status)

/-- The counters of a chunk. -/
def counters (census : Census) (id : ChunkId) : Option ChunkGoalCounters :=
  (census.find id).map (·.chunk.goalCounters)

/-- Only goals that exist are counted. -/
def Known (census : Census) : Prop :=
  ∀ id cs goal, census.counters id = some cs → 0 < cs.count goal → goal.isValid = true

/-- No chunk that the loop comes to loses the old goal without getting the new one. -/
def NeverLoses (e : Evaluator) (oldGoal goal : GoalId) : List ChunkId → Census → Prop
  | [], _ => True
  | id :: ids, census =>
      (∀ cs, census.counters id = some cs → 0 < cs.count oldGoal →
        (Reference.change oldGoal goal).Possible cs) ∧
      ((census.change e oldGoal goal id).2 = .ok →
        NeverLoses e oldGoal goal ids (census.change e oldGoal goal id).1)

variable {e : Evaluator} {census : Census} {id : ChunkId} {oldGoal goal : GoalId}

/-- A change that fails has taken the chunk out of the statistics. -/
theorem update_eq_of_error_iff (r : Reference) (id : ChunkId) :
    ((census.update e r id).2 ≠ .ok → (census.update e r id).1 = census) ↔
      r.isIdle = true ∨ ∀ cs, census.counters id = some cs → r.Possible cs := by
  unfold update counters
  split
  · simp [*]
  cases census.find id with
  | none => simp
  | some c =>
    simp only [map_some, some.injEq, forall_eq', ← r.apply_ok_iff e.env]
    rcases applied : r.apply e.env c.chunk with ⟨chunk, status⟩
    by_cases fine : status = .ok
    · simp [fine]
    · have left := Statistics.removeFromStats_ne c census.stats
      cases status <;> simp_all [Census.ext_iff]

/-- What the chunks count when a failed change has been rolled back. -/
def undone (e : Evaluator) (oldGoal goal : GoalId) (ids : List ChunkId) (census : Census) :
    ChunkId → Option ChunkGoalCounters :=
  let result := census.changeFiles e oldGoal goal ids
  (result.1.rollBack e oldGoal goal result.2.1).counters

theorem changeFiles_cons (id : ChunkId) (ids : List ChunkId) (census : Census) :
    census.changeFiles e oldGoal goal (id :: ids) =
      let next := census.change e oldGoal goal id
      if next.2 = .ok then
        let rest := next.1.changeFiles e oldGoal goal ids
        (rest.1, id :: rest.2.1, rest.2.2)
      else (next.1, [], next.2) := by
  rw [changeFiles]
  rcases census.change e oldGoal goal id with ⟨next, status⟩
  cases status <;> rfl

theorem changeFiles_idle (ids : List ChunkId) : (census.changeFiles e goal goal ids).2.2 = .ok := by
  induction ids with
  | nil => rfl
  | cons id ids ih => simpa [changeFiles, change, update, Reference.isIdle] using ih

section

variable (different : oldGoal ≠ goal)
include different

theorem change_ok_iff : (census.change e oldGoal goal id).2 = .ok ↔
    ∃ cs, census.counters id = some cs ∧ (Reference.change oldGoal goal).Possible cs := by
  unfold change update counters
  rw [Reference.isIdle, decide_eq_false different]
  cases census.find id with
  | none => simp
  | some c =>
    simp only [map_some, some.injEq, exists_eq_left', ← Reference.apply_ok_iff e.env]
    rcases (Reference.change oldGoal goal).apply e.env c.chunk with ⟨chunk, status⟩
    cases status <;> rfl

theorem counters_change (x : ChunkId) : (census.change e oldGoal goal id).1.counters x =
      if x = id then (census.counters id).map fun cs => (cs.changeFileGoal oldGoal goal).1
      else census.counters x := by
  have moved (c : Chunk) : ((Reference.change oldGoal goal).apply e.env c).1.goalCounters =
      (c.goalCounters.changeFileGoal oldGoal goal).1 := by
    rw [Reference.apply, Chunk.changeFileGoal]
    rcases c.goalCounters.changeFileGoal oldGoal goal with ⟨_, _ | _⟩ <;> rfl
  unfold change update counters
  rw [Reference.isIdle, decide_eq_false different]
  cases found : census.find id with
  | none => split <;> simp_all
  | some c =>
    simp only [map_some, ← moved c.chunk]
    rcases (Reference.change oldGoal goal).apply e.env c.chunk with ⟨chunk, status⟩
    by_cases eq : x = id <;> cases status <;> simp [eq]

theorem counters_rollBack (done : List ChunkId) (census : Census) (x : ChunkId) :
    (census.rollBack e oldGoal goal done).counters x =
      (census.counters x).map (fun cs => (cs.changeFileGoal goal oldGoal).1)^[done.count x] := by
  induction done generalizing census with
  | nil => simp [rollBack]
  | cons id done ih =>
    rw [rollBack, List.foldl_cons, ← rollBack, ih, counters_change different.symm]
    by_cases eq : x = id
    · simp [eq]
    · simp [eq, Ne.symm eq]

theorem undone_cons_of_ok (ids : List ChunkId)
    (fine : (census.change e oldGoal goal id).2 = .ok) (x : ChunkId) :
    census.undone e oldGoal goal (id :: ids) x =
      let rest := (census.change e oldGoal goal id).1.undone e oldGoal goal ids x
      if x = id then rest.map fun cs => (cs.changeFileGoal goal oldGoal).1 else rest := by
  simp only [undone, changeFiles_cons, if_pos fine, counters_rollBack different, List.count_cons]
  by_cases eq : x = id
  · simp only [eq, beq_self_eq_true, if_true, Function.iterate_succ', map_map]
  · simp [eq, Ne.symm eq]

theorem undone_cons_of_error (ids : List ChunkId)
    (failed : (census.change e oldGoal goal id).2 ≠ .ok) (x : ChunkId) :
    census.undone e oldGoal goal (id :: ids) x =
      if x = id then (census.counters id).map fun cs => (cs.changeFileGoal oldGoal goal).1
      else census.counters x := by
  simp only [undone, changeFiles_cons, if_neg failed, rollBack, List.foldl_nil,
    counters_change different]

/-- The rollback restores what the chunks counted, unless one of them lost a goal. -/
theorem undone_eq {ids : List ChunkId}
    (known : ∀ id cs, census.counters id = some cs → 0 < cs.count oldGoal → oldGoal.isValid = true)
    (safe : NeverLoses e oldGoal goal ids census)
    (failed : (census.changeFiles e oldGoal goal ids).2.2 ≠ .ok) (x : ChunkId) :
    census.undone e oldGoal goal ids x = census.counters x := by
  induction ids generalizing census with
  | nil => exact absurd rfl failed
  | cons id ids ih =>
    by_cases fine : (census.change e oldGoal goal id).2 = .ok
    · rw [changeFiles_cons, if_pos fine] at failed
      obtain ⟨cs, found, possible⟩ := (change_ok_iff different).mp fine
      have valid := known id cs found
        (ChunkGoalCounters.removeFile_ok_iff.mp (possible.imp fun _ => And.left))
      obtain ⟨cs', changed⟩ := changeFileGoal_ok_iff.mpr possible
      have back := changeFileGoal_back different valid changed
      simp only [undone_cons_of_ok different ids fine,
        ih (fun _ _ _ _ => valid) (safe.2 fine) failed, counters_change different]
      split
      · simp [*]
      · rfl
    · rw [undone_cons_of_error different ids fine]
      split
      · subst x
        cases found : census.counters id with
        | none => rfl
        | some cs =>
          have uncounted : ¬ 0 < cs.count oldGoal := fun counted =>
            fine ((change_ok_iff different).mpr ⟨cs, found, safe.1 cs found counted⟩)
          rw [← ChunkGoalCounters.removeFile_ok_iff] at uncounted
          rw [map_some, ChunkGoalCounters.changeFileGoal]
          split
          · rfl
          · exact absurd ⟨_, ‹_›⟩ uncounted
      · rfl

/-- A chunk that lost a goal does not get it back. -/
theorem exists_undone_lt {ids : List ChunkId} (loses : ¬ NeverLoses e oldGoal goal ids census) :
    (census.changeFiles e oldGoal goal ids).2.2 ≠ .ok ∧ ∃ x cs cs', census.counters x = some cs ∧
      census.undone e oldGoal goal ids x = some cs' ∧ cs'.count oldGoal < cs.count oldGoal := by
  induction ids generalizing census with
  | nil => exact absurd trivial loses
  | cons id ids ih =>
    by_cases fine : (census.change e oldGoal goal id).2 = .ok
    · obtain ⟨cs, found, possible⟩ := (change_ok_iff different).mp fine
      obtain ⟨cs', changed⟩ := changeFileGoal_ok_iff.mpr possible
      have counts := count_changeFileGoal changed oldGoal
      rw [if_pos rfl, if_neg different.symm] at counts
      obtain ⟨failed, x, prev, after, start, result, less⟩ := ih fun safe =>
        loses ⟨fun _ eq _ => some.inj (found.symm.trans eq) ▸ possible, fun _ => safe⟩
      refine ⟨by simpa [changeFiles_cons, fine] using failed, x, ?_⟩
      simp only [undone_cons_of_ok different ids fine, result]
      rw [counters_change different] at start
      by_cases eq : x = id
      · rw [if_pos eq, found, map_some, changed] at start
        obtain rfl := some.inj start
        have back := after.count_changeFileGoal_le goal oldGoal oldGoal
        refine ⟨cs, _, eq ▸ found, if_pos eq, ?_⟩
        dsimp only at less ⊢
        omega
      · rw [if_neg eq] at start
        exact ⟨prev, after, start, if_neg eq, less⟩
    · obtain ⟨cs, found, counted, impossible⟩ : ∃ cs, census.counters id = some cs ∧
          0 < cs.count oldGoal ∧ ¬ (Reference.change oldGoal goal).Possible cs := by
        by_contra none
        push Not at none
        exact loses ⟨none, fun ok => absurd ok fine⟩
      obtain ⟨removed, first⟩ := ChunkGoalCounters.removeFile_ok_iff.mpr counted
      have counts := count_removeFile first oldGoal
      rw [if_pos rfl] at counts
      have stranded : (cs.changeFileGoal oldGoal goal).1 = removed := by
        rw [ChunkGoalCounters.changeFileGoal, first]
        cases second : removed.addFile goal with
        | error _ => simp only [second]
        | ok added => exact absurd ⟨_, first, addFile_ok_iff.mp ⟨_, second⟩⟩ impossible
      refine ⟨by simp [changeFiles_cons, fine], id, cs, removed, found, ?_, by omega⟩
      rw [undone_cons_of_error different ids fine, if_pos rfl, found, map_some, stranded]

end

/-- The goal changes that fail without a trace. -/
theorem unchanged_on_error_iff (known : census.Known) :
    (∀ r id, ((census.update e r id).2 ≠ .ok → (census.update e r id).1 = census) ↔
        r.isIdle = true ∨ ∀ cs, census.counters id = some cs → r.Possible cs) ∧
      ∀ checks oldGoal goal ids,
        ((census.changeFileGoal e checks oldGoal goal ids).2 ≠ .ok →
            ∀ id, (census.changeFileGoal e checks oldGoal goal ids).1.counters id =
              census.counters id) ↔
          checks ≠ .ok ∨ oldGoal = goal ∨ NeverLoses e oldGoal goal ids census := by
  refine ⟨update_eq_of_error_iff, fun checks oldGoal goal ids => ?_⟩
  by_cases refused : checks ≠ .ok
  · simp [changeFileGoal, refused]
  have result : census.changeFileGoal e checks oldGoal goal ids =
      let loop := census.changeFiles e oldGoal goal ids
      (if loop.2.2 = .ok then loop.1 else loop.1.rollBack e oldGoal goal loop.2.1, loop.2.2) := by
    rw [changeFileGoal, if_neg refused]
    rcases census.changeFiles e oldGoal goal ids with ⟨next, done, status⟩
    cases status <;> rfl
  by_cases same : oldGoal = goal
  · subst same
    simp [result, changeFiles_idle]
  simp only [refused, same, false_or, result]
  constructor
  · intro unchanged
    by_contra loses
    obtain ⟨failed, x, cs, cs', before, after, less⟩ := exists_undone_lt same loses
    have kept := unchanged failed x
    rw [if_neg failed] at kept
    cases before.symm.trans (kept.symm.trans after)
    exact Nat.lt_irrefl _ less
  · intro safe failed
    rw [if_neg failed]
    exact undone_eq same (fun id cs => known id cs oldGoal) safe failed

/-- A master without chunkservers, to which every chunk looks the same. -/
def idleMaster : Evaluator where
  env := ⟨fun _ => none, 0, fun _ => [], 0, false⟩
  evaluate := fun _ => ⟨0, 0, 0, 0⟩

def oneReference : ChunkGoalCounters :=
  ⟨[⟨1, 1⟩], ⟨List.pairwise_singleton _ _, by decide⟩, by decide⟩

/-- One chunk of one file with goal 1. -/
def oneFile : Census where
  find := fun id =>
    if id = 1 then some ⟨{ Chunk.new 1 1 with goalCounters := oneReference }, ⟨0, 0, 0, 0⟩⟩
    else none
  stats := ⟨fun _ _ => 0, fun _ _ => 0, fun _ _ => 0, fun _ _ => 0⟩

theorem oneFile_known : oneFile.Known := by
  intro id cs goal found counted
  dsimp only [counters, oneFile] at found
  split at found
  · obtain rfl : oneReference = cs := some.inj found
    have eq : (1 : GoalId) = goal := by
      by_contra other
      simp [count, oneReference, other] at counted
    subst eq
    rfl
  · cases found

/-- The second chunk of a file does not exist: the first one, which had got goal 2, has goal 1
again, as it has after a change of the missing chunk alone. -/
theorem unchanged_on_error_iff_oneFile :
    ((oneFile.update idleMaster (.change 1 2) 2).2 = .noChunk ∧
      (oneFile.update idleMaster (.change 1 2) 2).1 = oneFile) ∧
    ((oneFile.changeFiles idleMaster 1 2 [1, 2]).1.counters 1).map (·.count 1) = some 0 ∧
    (oneFile.changeFileGoal idleMaster .ok 1 2 [1, 2]).2 = .noChunk ∧
    ∀ id, (oneFile.changeFileGoal idleMaster .ok 1 2 [1, 2]).1.counters id =
      oneFile.counters id := by
  have missing : (oneFile.update idleMaster (.change 1 2) 2).2 = .noChunk := by decide
  have failed : (oneFile.changeFileGoal idleMaster .ok 1 2 [1, 2]).2 = .noChunk := by decide
  have neverLoses : NeverLoses idleMaster 1 2 [1, 2] oneFile :=
    ⟨fun cs found _ => some.inj found ▸ ⟨_, rfl, by decide, by decide⟩,
      fun _ => ⟨fun cs found => absurd found.symm (some_ne_none cs), fun _ => trivial⟩⟩
  have kept : (oneFile.update idleMaster (.change 1 2) 2).1 = oneFile :=
    ((unchanged_on_error_iff oneFile_known).1 (.change 1 2) 2).mpr
      (.inr fun cs found => absurd found.symm (some_ne_none cs)) (by simp [missing])
  exact ⟨⟨missing, kept⟩, by decide, failed,
    ((unchanged_on_error_iff oneFile_known).2 .ok 1 2 [1, 2]).mpr (.inr (.inr neverLoses))
      (by simp [failed])⟩

theorem changeFileGoal_to_unknown_goal_loses_reference :
    (oneFile.update idleMaster (.change 1 41) 1).2 = .chunkLost ∧
      (oneFile.update idleMaster (.change 1 41) 1).1.stats.fullChunkCopies 0 0 ≠
        oneFile.stats.fullChunkCopies 0 0 ∧
      (oneFile.changeFileGoal idleMaster .ok 1 41 [1]).2 = .chunkLost ∧
      (oneFile.counters 1).map (·.count 1) = some 1 ∧
      ((oneFile.changeFileGoal idleMaster .ok 1 41 [1]).1.counters 1).map (·.count 1) = some 0 := by
  decide

end Census

end LeilFS.Chunks
