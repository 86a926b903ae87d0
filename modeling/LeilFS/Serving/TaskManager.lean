/-
Module: LeilFS.Serving.TaskManager
Purpose: The jobs of a master, which are executed task by task, and when their submitters get an
  answer.
Trusted boundary: none
-/
import LeilFS.Lib.StepSystem

namespace LeilFS.Serving

open List StepSystem

variable {τ : Type*}

/-- What an execution of a task does. It may add tasks at both ends, also when it throws. -/
structure Execution (τ : Type*) where
  throws : Bool
  status : ℤ
  isFinished : Bool
  front : List τ
  back : List τ

/-- [SPEC leil_error_codes.h:43,49] -/
def saunafsErrorIO : ℤ := 22

def saunafsErrorNotDone : ℤ := 16

/-- [SPEC task_manager.cc:48-57] -/
def Execution.result (e : Execution τ) : ℤ := if e.throws then saunafsErrorIO else e.status

/-- What happens to a job: a task is executed, or the callback is called. -/
inductive Record (τ : Type*) where
  | executed (e : Execution τ)
  | answered (status : ℤ) (cancelled : Bool)

/-- A job with the tasks that are left, and what has happened to it. -/
structure Job (τ : Type*) where
  id : ℕ
  tasks : List τ
  records : List (Record τ)

namespace Job

/-- [SPEC task_manager.cc:29-34] -/
def finalize (job : Job τ) (status : ℤ) (cancelled : Bool) : Job τ :=
  { job with tasks := [], records := job.records ++ [.answered status cancelled] }

/-- [SPEC task_manager.cc:36-42] -/
def finalizeTask (job : Job τ) (e : Execution τ) : Job τ :=
  if e.result ≠ 0 ∨ e.isFinished ∧ job.tasks.length ≤ 1 then job.finalize e.result false
  else if e.isFinished then { job with tasks := job.tasks.eraseIdx e.front.length }
  else job

/-- [SPEC task_manager.cc:44-60] -/
def processTask (job : Job τ) (e : Execution τ) : Job τ :=
  if job.tasks.isEmpty then job
  else { job with
    tasks := e.front ++ (job.tasks ++ e.back)
    records := job.records ++ [Record.executed e] }.finalizeTask e

/-- The first tasks are executed at once [SPEC task_manager.cc:78-83]. -/
def processBatch : List (Execution τ) → Job τ → Job τ
  | [], job => job
  | e :: batch, job =>
    let job := job.processTask e
    if job.tasks.isEmpty then job else processBatch batch job

end Job

/-- The jobs of the list, and those that are no longer or were never on it. -/
structure TaskManager (τ : Type*) where
  jobList : List (Job τ)
  gone : List (Job τ)

namespace TaskManager

/-- [SPEC task_manager.cc:66-95] -/
def submitTask (m : TaskManager τ) (taskid : ℕ) (task : τ) (batch : List (Execution τ)) :
    TaskManager τ :=
  let job := Job.processBatch batch ⟨taskid, [task], []⟩
  if job.tasks.isEmpty then { m with gone := m.gone ++ [job] }
  else { m with jobList := m.jobList ++ [job] }

/-- The loop from a position of the list on [SPEC task_manager.cc:102-121]: in each turn the
watchdog may have expired. -/
def processFrom : ℕ → List (Bool × Execution τ) → TaskManager τ → TaskManager τ
  | _, [], m => m
  | it, (expired, e) :: turns, m =>
    match m.jobList[it]? with
    | none => m
    | some job =>
      if expired then m
      else if job.tasks.isEmpty then
        let jobs := m.jobList.eraseIdx it
        processFrom (if it = jobs.length then 0 else it) turns ⟨jobs, m.gone ++ [job]⟩
      else
        let jobs := m.jobList.set it (job.processTask e)
        processFrom (if it + 1 = jobs.length then 0 else it + 1) turns ⟨jobs, m.gone⟩

/-- [SPEC task_manager.cc:132-139] -/
def cancelJob (jobId : ℕ) : List (Job τ) → List (Job τ)
  | [] => []
  | job :: jobs =>
    if job.id = jobId then job.finalize saunafsErrorNotDone true :: jobs
    else job :: cancelJob jobId jobs

end TaskManager

/-- A call, with what the tasks do that are executed during it. -/
inductive TaskEvent (τ : Type*) where
  | submitTask (taskid : ℕ) (task : τ) (batch : List (Execution τ))
  | processJobs (turns : List (Bool × Execution τ))
  | cancelJob (jobId : ℕ)

def TaskManager.step (m : TaskManager τ) : TaskEvent τ → TaskManager τ
  | .submitTask taskid task batch => m.submitTask taskid task batch
  | .processJobs turns => m.processFrom 0 turns
  | .cancelJob jobId => { m with jobList := cancelJob jobId m.jobList }

/-! ## Jobs that are answered rightly -/

/-- How many of the tasks of a job are not finished. -/
def unfinished (executions : List (Execution τ)) : ℤ :=
  1 + (executions.map fun e =>
    (e.front.length + e.back.length : ℤ) - if e.isFinished then 1 else 0).sum

/-- Tasks are executed as long as they succeed. The only answer comes at the end: it is the status
of the last execution, when this failed or all tasks are finished, or that of a cancellation. -/
inductive Job.Right : Job τ → Prop
  | waiting {id : ℕ} {tasks : List τ} (executions : List (Execution τ)) (some : tasks ≠ [])
      (succeeded : ∀ e ∈ executions, e.result = 0) (left : unfinished executions = tasks.length) :
      Right ⟨id, tasks, executions.map .executed⟩
  | processed {id : ℕ} (executions : List (Execution τ)) (last : Execution τ)
      (succeeded : ∀ e ∈ executions, e.result = 0)
      (complete : last.result = 0 → unfinished (executions ++ [last]) = 0) :
      Right ⟨id, [], (executions ++ [last]).map .executed ++ [.answered last.result false]⟩
  | cancelled {id : ℕ} (executions : List (Execution τ))
      (succeeded : ∀ e ∈ executions, e.result = 0) :
      Right ⟨id, [], executions.map .executed ++ [.answered saunafsErrorNotDone true]⟩

variable {job : Job τ} {jobs : List (Job τ)} {m : TaskManager τ}

theorem unfinished_concat (executions : List (Execution τ)) (e : Execution τ) :
    unfinished (executions ++ [e]) = unfinished executions + e.front.length + e.back.length -
        if e.isFinished then 1 else 0 := by
  simp only [unfinished, map_append, sum_append, map_singleton, sum_singleton]
  ring

theorem Job.Right.processTask (h : job.Right) (e : Execution τ) : (job.processTask e).Right := by
  cases h with
  | processed executions last succeeded complete =>
    exact .processed executions last succeeded complete
  | cancelled executions succeeded => exact .cancelled executions succeeded
  | @waiting id tasks executions some succeeded left =>
    have count := unfinished_concat executions e
    have pos := length_pos_iff.mpr some
    have records : executions.map Record.executed ++ [.executed e] =
        (executions ++ [e]).map .executed := by simp
    have all (ok : e.result = 0) : ∀ other ∈ executions ++ [e], other.result = 0 :=
      forall_mem_append.mpr ⟨succeeded, forall_mem_singleton.mpr ok⟩
    rw [Job.processTask, if_neg (by simpa using some), records, finalizeTask]
    dsimp only
    rw [length_append, length_append]
    split_ifs with last done
    · refine .processed executions e succeeded fun ok => ?_
      obtain ⟨done, one⟩ := last.resolve_left (not_not_intro ok)
      rw [count, left, if_pos done]
      omega
    all_goals push Not at last
    · have more := last.2 done
      have others : ((e.front ++ (tasks ++ e.back)).eraseIdx e.front.length).length =
          e.front.length + (tasks.length + e.back.length) - 1 := by
        rw [length_eraseIdx_of_lt (by simp [pos]), length_append, length_append]
      refine .waiting _ (ne_nil_of_length_pos ?_) (all last.1) ?_
      · omega
      · rw [count, left, if_pos done, others]
        omega
    · refine .waiting _ (by simp [some]) (all last.1) ?_
      rw [count, left, if_neg done, length_append, length_append]
      omega

theorem Job.Right.processBatch (h : job.Right) (batch : List (Execution τ)) :
    (Job.processBatch batch job).Right := by
  induction batch generalizing job with
  | nil => exact h
  | cons e batch ih =>
    rw [Job.processBatch]
    split_ifs
    · exact h.processTask e
    · exact ih (h.processTask e)

/-- A job is cancelled before it is answered. -/
theorem Job.Right.cancel (h : job.Right) (some : job.tasks ≠ []) :
    (job.finalize saunafsErrorNotDone true).Right := by
  cases h with
  | waiting executions some succeeded => exact .cancelled executions succeeded
  | processed => exact absurd rfl some
  | cancelled => exact absurd rfl some

/-! ## Every job -/

/-- Every job that was ever submitted is answered rightly. -/
def TaskManager.Right (m : TaskManager τ) : Prop :=
  (∀ job ∈ m.jobList, job.Right) ∧ ∀ job ∈ m.gone, job.Right

/-- The first job with the number has tasks left. -/
def Cancellable (m : TaskManager τ) : TaskEvent τ → Prop
  | .cancelJob jobId => ∀ job ∈ m.jobList.find? (·.id = jobId), job.tasks ≠ []
  | _ => True

namespace TaskManager.Right

theorem submitTask (h : m.Right) (taskid : ℕ) (task : τ) (batch : List (Execution τ)) :
    (m.submitTask taskid task batch).Right := by
  have submitted : (Job.mk taskid [task] []).Right :=
    .waiting [] (cons_ne_nil _ _) (forall_mem_nil _) rfl
  have job := submitted.processBatch batch
  unfold TaskManager.submitTask
  dsimp only
  split_ifs
  · exact ⟨h.1, forall_mem_append.mpr ⟨h.2, forall_mem_singleton.mpr job⟩⟩
  · exact ⟨forall_mem_append.mpr ⟨h.1, forall_mem_singleton.mpr job⟩, h.2⟩

theorem processFrom (h : m.Right) (it : ℕ) (turns : List (Bool × Execution τ)) :
    (m.processFrom it turns).Right := by
  induction turns generalizing m it with
  | nil => exact h
  | cons turn turns ih =>
    unfold TaskManager.processFrom
    split
    · exact h
    case h_2 job there =>
      have known := h.1 job (mem_of_getElem? there)
      split_ifs
      · exact h
      · apply ih
        exact ⟨fun other mem => h.1 other (mem_of_mem_eraseIdx mem),
          forall_mem_append.mpr ⟨h.2, forall_mem_singleton.mpr known⟩⟩
      · apply ih
        refine ⟨fun other mem => ?_, h.2⟩
        obtain old | rfl := mem_or_eq_of_mem_set mem
        · exact h.1 other old
        · exact known.processTask _

theorem cancelJob (right : ∀ job ∈ jobs, job.Right) {jobId : ℕ}
    (left : ∀ job ∈ jobs.find? (·.id = jobId), job.tasks ≠ []) :
    ∀ job ∈ TaskManager.cancelJob jobId jobs, job.Right := by
  induction jobs with
  | nil => exact right
  | cons job jobs ih =>
    rw [forall_mem_cons] at right
    unfold TaskManager.cancelJob
    split_ifs with eq
    · exact forall_mem_cons.mpr ⟨right.1.cancel (left job (by simp [eq])), right.2⟩
    · refine forall_mem_cons.mpr ⟨right.1, ih right.2 ?_⟩
      rwa [find?_cons_of_neg (by simpa using eq)] at left

theorem step (h : m.Right) (event : TaskEvent τ) (cancellable : Cancellable m event) :
    (m.step event).Right := by
  cases event with
  | submitTask taskid task batch => exact h.submitTask taskid task batch
  | processJobs turns => exact h.processFrom 0 turns
  | cancelJob jobId => exact ⟨cancelJob h.1 cancellable, h.2⟩

end TaskManager.Right

/-- As long as no job is cancelled that is answered already, every job is answered rightly. -/
theorem answered_rightly (events : List (TaskEvent τ))
    (cancellable : Along TaskManager.step Cancellable ⟨[], []⟩ events) :
    (run TaskManager.step ⟨[], []⟩ events).Right :=
  invariant_run (fun _ event right => right.step event) ⟨forall_mem_nil _, forall_mem_nil _⟩
    cancellable

/-- A job that waits is cancelled. -/
theorem answered_rightly_cancelled :
    TaskManager.Right (run .step ⟨[], []⟩ [.submitTask 7 () [], .cancelJob 7]) :=
  answered_rightly _ ⟨trivial, by simp [Cancellable, TaskManager.step, TaskManager.submitTask,
    Job.processBatch], trivial⟩

/-- The only task of a job finishes, and the job is cancelled before it leaves the list. -/
theorem cancelJob_answers_again :
    let finishes : Execution Unit := ⟨false, 0, true, [], []⟩
    (run TaskManager.step ⟨[], []⟩
        [.submitTask 7 () [], .processJobs [(false, finishes)], .cancelJob 7]).jobList =
      [⟨7, [], [.executed finishes, .answered 0 false, .answered saunafsErrorNotDone true]⟩] :=
  rfl

end LeilFS.Serving
