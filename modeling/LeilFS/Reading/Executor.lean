/-
Module: LeilFS.Reading.Executor
Purpose: Whether reading can still finish when some parts cannot be read, and the loop that
  starts the reads of a plan and waits for them.
Trusted boundary: none
-/
import LeilFS.Reading.SlicePlanner

namespace LeilFS.Reading

open List LeilFS.Chunks

/-! ## Whether reading can still finish -/

/-- The parts of a plan without the unreadable ones. -/
def ReadPlan.remaining (plan : ReadPlan) (unreadable : List ChunkPartType) : List ChunkPartType :=
  (plan.readOperations.map Prod.fst).filter fun cpt => cpt ∉ unreadable

namespace ReadPlan

variable {plan : ReadPlan} {unreadable : List ChunkPartType} {part : ℕ}

/-- The unreadable parts are some of the plan's, so the others are as many as are left. -/
theorem length_remaining (nodup : (plan.readOperations.map Prod.fst).Nodup)
    (each : unreadable.Nodup) (planned : unreadable ⊆ plan.readOperations.map Prod.fst) :
    (plan.remaining unreadable).length + unreadable.length = plan.readOperations.length := by
  have split := length_eq_length_filter_add (l := plan.readOperations.map Prod.fst) (· ∈ unreadable)
  have eq : ((plan.readOperations.map Prod.fst).filter (· ∈ unreadable)).Perm unreadable := by
    refine (perm_ext_iff_of_nodup (nodup.filter _) each).mpr fun cpt => ?_
    rw [mem_filter, decide_eq_true_eq]
    exact ⟨fun both => both.2, fun mem => ⟨planned mem, mem⟩⟩
  have rest : (plan.remaining unreadable).length =
      ((plan.readOperations.map Prod.fst).filter fun cpt => !decide (cpt ∈ unreadable)).length := by
    rw [remaining]
    congr 2
    funext cpt
    exact decide_not
  rw [length_map, eq.length_eq] at split
  rw [rest, split, Nat.add_comm]

/-- A part with a read of its own is among the remaining ones exactly when it is not
unreadable. -/
theorem hasPart_remaining (nodup : ((plan.readOperations.map Prod.fst).map (·.slicePart)).Nodup)
    (planned : unreadable ⊆ plan.readOperations.map Prod.fst)
    (there : hasPart (plan.readOperations.map Prod.fst) part = true) :
    hasPart (plan.remaining unreadable) part = true ↔ hasPart unreadable part = false := by
  rw [← Bool.not_eq_true, hasPart_iff, hasPart_iff, mem_map, mem_map]
  obtain ⟨cpt, mem, rfl⟩ := mem_map.mp (hasPart_iff.mp there)
  constructor
  · rintro ⟨kept, keptMember, keptPart⟩ ⟨lost, lostMember, lostPart⟩
    obtain ⟨inPlan, readable⟩ := mem_filter.mp keptMember
    have eq := inj_on_of_nodup_map nodup inPlan (planned lostMember)
      (keptPart.trans lostPart.symm)
    rw [eq] at readable
    simp [lostMember] at readable
  · intro none
    refine ⟨cpt, mem_filter.mpr ⟨mem, ?_⟩, rfl⟩
    exact decide_eq_true fun lost => none ⟨cpt, lost, rfl⟩

theorem isReadingFinished_iff {avail : List ChunkPartType} : plan.isReadingFinished avail = true ↔
      plan.sliceType.getNumberOfDataParts ≤ avail.length ∨
        ∀ info ∈ plan.requestedParts, hasPart avail info.part = true := by
  rw [isReadingFinished, Bool.or_eq_true, decide_eq_true_eq, all_eq_true]

/-- For parts that are read once each: the answer whether reading can still finish is the one
that the remaining parts give, unless a requested part is not read at all, too few parts remain
to recover it, and no requested part is unreadable. -/
theorem isFinishingPossible_iff
    (nodup : ((plan.readOperations.map Prod.fst).map (·.slicePart)).Nodup)
    (each : unreadable.Nodup) (planned : unreadable ⊆ plan.readOperations.map Prod.fst) :
    (plan.isFinishingPossible unreadable = true ↔
        plan.isReadingFinished (plan.remaining unreadable) = true) ↔
      (∀ info ∈ plan.requestedParts, hasPart (plan.readOperations.map Prod.fst) info.part = true) ∨
      plan.sliceType.getNumberOfDataParts + unreadable.length ≤ plan.readOperations.length ∨
      ∃ info ∈ plan.requestedParts, hasPart unreadable info.part = true := by
  have left := length_remaining nodup.of_map each planned
  have finishing : plan.isFinishingPossible unreadable = true ↔
      plan.sliceType.getNumberOfDataParts ≤ (plan.remaining unreadable).length ∨
        ∀ info ∈ plan.requestedParts, hasPart unreadable info.part = false := by
    have size : sizeDifference plan.readOperations.length unreadable.length =
        (plan.remaining unreadable).length := by
      rw [sizeDifference, if_pos (by omega)]
      omega
    rw [isFinishingPossible, Bool.or_eq_true, decide_eq_true_eq, Bool.not_eq_true', size,
      any_eq_false]
    simp only [Bool.not_eq_true]
  have enough :
      plan.sliceType.getNumberOfDataParts + unreadable.length ≤ plan.readOperations.length ↔
        plan.sliceType.getNumberOfDataParts ≤ (plan.remaining unreadable).length := by
    rw [← left]
    exact Nat.add_le_add_iff_right
  rw [isReadingFinished_iff, finishing, enough]
  by_cases all : ∀ info ∈ plan.requestedParts,
      hasPart (plan.readOperations.map Prod.fst) info.part = true
  · -- the read of a requested part remains unless the part is unreadable
    have eq : (∀ info ∈ plan.requestedParts, hasPart unreadable info.part = false) ↔
        ∀ info ∈ plan.requestedParts, hasPart (plan.remaining unreadable) info.part = true :=
      forall₂_congr fun info mem => (hasPart_remaining nodup planned (all info mem)).symm
    rw [eq]
    exact ⟨fun _ => .inl all, fun _ => Iff.rfl⟩
  -- a requested part without a read is no unreadable one, and does not remain
  have lost : ¬ ∀ info ∈ plan.requestedParts,
      hasPart (plan.remaining unreadable) info.part = true := by
    intro remain
    refine all fun info mem => hasPart_iff.mpr ?_
    obtain ⟨cpt, kept, eq⟩ := mem_map.mp (hasPart_iff.mp (remain info mem))
    exact mem_map.mpr ⟨cpt, (mem_filter.mp kept).1, eq⟩
  have readable : (∀ info ∈ plan.requestedParts, hasPart unreadable info.part = false) ↔
      ¬ ∃ info ∈ plan.requestedParts, hasPart unreadable info.part = true := by
    push Not
    simp only [Bool.not_eq_true]
  simp only [readable, lost, all, false_or]
  by_cases remain : plan.sliceType.getNumberOfDataParts ≤ (plan.remaining unreadable).length
  · simp only [remain, true_or]
  · simp only [remain, false_or, iff_false, not_not]

end ReadPlan

namespace SliceReadPlanner

variable {planner : SliceReadPlanner}

/-- What a built plan reads: different parts of the slice, among those to use, and all that were
requested if these were available. -/
theorem parts_buildPlanFor (h : Ready planner) (firstBlock blockCount : ℕ) (addExtra : Bool)
    {plan : ReadPlan} (built : planner.buildPlanFor firstBlock blockCount addExtra = plan) :
    ((plan.readOperations.map Prod.fst).map (·.slicePart)).Nodup ∧
      (∀ cpt ∈ plan.readOperations.map Prod.fst, cpt ∈ planner.weightedPartsToUse) ∧
      (planner.requiredPartsAvailable = true → ∀ part ∈ planner.sliceParts,
        hasPart (plan.readOperations.map Prod.fst) part = true) := by
  obtain ⟨used, state, either, building, -, eq, -, wanted⟩ :=
    building_buildPlanFor h firstBlock blockCount addExtra
  rw [built] at eq
  subst eq
  obtain ⟨slot, slots, laid⟩ := building.laid
  refine ⟨?_, fun cpt mem => ?_, fun avail part asked => ?_⟩
  · rw [map_map]
    exact laid.distinct
  · have mem := building.added.subset mem
    rcases either with rfl | rfl
    · exact mem
    · rcases mem_append.mp mem with front | back
      · exact (mem_filter.mp front).1
      · exact (mem_filter.mp back).1
  · obtain ⟨cpt, there, equal⟩ := any_eq_true.mp (h.wanted avail part asked)
    refine any_eq_true.mpr ⟨cpt, wanted avail (mem_filter.mpr ⟨there, ?_⟩), equal⟩
    rw [of_decide_eq_true equal]
    exact decide_eq_true asked

theorem mem_weightedPartsToUse {sliceType : SliceType} {sliceParts : List ℕ}
    {avail : List ChunkPartType} {cpt : ChunkPartType}
    (used : cpt ∈ (planner.prepare sliceType sliceParts avail).weightedPartsToUse) :
    cpt ∈ avail ∧ cpt.sliceType = sliceType := by
  dsimp only [prepare] at used
  split at used
  · exact mem_partsToUse.mp (mem_mergeSort.mp used)
  · exact absurd used not_mem_nil

theorem hasPart_of_typed {parts : List ChunkPartType} {sliceType : SliceType} {part : ℕ}
    (typed : ∀ cpt ∈ parts, cpt.sliceType = sliceType) :
    hasPart parts part = true ↔ ⟨sliceType, part⟩ ∈ parts := by
  rw [ReadPlan.hasPart_iff, mem_map]
  constructor
  · rintro ⟨cpt, mem, rfl⟩
    rw [← typed cpt mem]
    exact mem
  · exact fun mem => ⟨_, mem, rfl⟩

/-- For a plan built for parts that can be read and some of its parts that turn out unreadable,
the answer whether reading can still finish is the one that the remaining parts give exactly
when all requested parts were available, or enough parts remain to recover any, or a requested
part is unreadable. -/
theorem isFinishingPossible_exact (planner : SliceReadPlanner) {sliceType : SliceType}
    {sliceParts : List ℕ} {available unreadable : List ChunkPartType}
    (known : sliceType ≤ SliceType.kECLast)
    (requested : ∀ part ∈ sliceParts, (⟨sliceType, part⟩ : ChunkPartType).Valid)
    (distinct : sliceParts.Nodup) (valid : ∀ cpt ∈ available, cpt.Valid)
    (possible : (planner.prepare sliceType sliceParts available).canRead = true)
    (firstBlock blockCount : ℕ) (addExtra : Bool) {plan : ReadPlan}
    (built : (planner.prepare sliceType sliceParts available).buildPlanFor firstBlock blockCount
      addExtra = plan)
    (each : unreadable.Nodup) (planned : unreadable ⊆ plan.readOperations.map Prod.fst) :
    (plan.isFinishingPossible unreadable = true ↔
        plan.isReadingFinished (plan.remaining unreadable) = true) ↔
      (∀ part ∈ sliceParts, ⟨sliceType, part⟩ ∈ available) ∨
      sliceType.getNumberOfDataParts + unreadable.length ≤ plan.readOperations.length ∨
      ∃ part ∈ sliceParts, ⟨sliceType, part⟩ ∈ unreadable := by
  have ready := planner.ready_prepare known requested distinct valid possible
  obtain ⟨distinctParts, used, wanted⟩ :=
    parts_buildPlanFor ready firstBlock blockCount addExtra built
  obtain ⟨⟨fixed, -⟩, -⟩ := built_buildPlanFor ready firstBlock blockCount addExtra
  rw [built] at fixed
  obtain ⟨type, requestedParts, -⟩ := fixed
  have parts : plan.requestedParts.map (·.part) = sliceParts := by
    rw [requestedParts]
    exact requested_map_part _ firstBlock blockCount
  have typed : ∀ cpt ∈ plan.readOperations.map Prod.fst, cpt.sliceType = sliceType :=
    fun cpt member => (mem_weightedPartsToUse (used cpt member)).2
  have read : (∀ info ∈ plan.requestedParts,
        hasPart (plan.readOperations.map Prod.fst) info.part = true) ↔
      ∀ part ∈ sliceParts, ⟨sliceType, part⟩ ∈ available := by
    rw [← parts, forall_mem_map]
    constructor
    · intro planned info member
      exact (mem_weightedPartsToUse (used _ ((hasPart_of_typed typed).mp (planned info member)))).1
    · intro all info member
      refine wanted (all_eq_true.mpr fun part requested => ?_) _ (parts ▸ mem_map_of_mem member)
      obtain ⟨info, member, rfl⟩ := mem_map.mp (parts.symm ▸ requested)
      exact any_eq_true.mpr ⟨_, mem_partsToUse.mpr ⟨all info member, rfl⟩, by simp⟩
  have lost : (∃ info ∈ plan.requestedParts, hasPart unreadable info.part = true) ↔
      ∃ part ∈ sliceParts, ⟨sliceType, part⟩ ∈ unreadable := by
    have unreadableTyped := fun cpt member => typed cpt (planned member)
    simp only [← parts, mem_map, exists_exists_and_eq_and, hasPart_of_typed unreadableTyped]
  rw [ReadPlan.isFinishingPossible_iff distinctParts each planned, read, lost,
    show plan.sliceType = sliceType from type]

/-- The first part of a chunk with two data parts is lost, and read from the other two. -/
def lostPart : ReadPlan where
  sliceType := 2
  requestedParts := [⟨1, 65536⟩]
  bufferPartSize := 65536
  readOperations := [(⟨2, 0⟩, ⟨0, 65536, 65536, 0⟩), (⟨2, 2⟩, ⟨0, 65536, 131072, 0⟩)]
  readBufferSize := 196608
  postprocessOperations := []

theorem buildPlanFor_lostPart :
    ((new (fun n => n) fun _ => none).prepare 2 [1] [⟨2, 0⟩, ⟨2, 2⟩]).buildPlanFor 0 1 true
      = lostPart := by
  have prepared : (new (fun n => n) fun _ => none).prepare 2 [1] [⟨2, 0⟩, ⟨2, 2⟩] =
      ⟨fun n => n, fun _ => none, 2, [1], [(⟨2, 0⟩ : ChunkPartType), ⟨2, 2⟩].mergeSort
        (fun _ _ => decide ((1 : ℚ) ≤ 1)), false, true⟩ := rfl
  rw [prepared, SliceReadPlanner.mergeSort_unscored]
  decide

theorem isFinishingPossible_exact_lostPart :
    (lostPart.isFinishingPossible [⟨2, 0⟩] = true ↔
        lostPart.isReadingFinished (lostPart.remaining [⟨2, 0⟩]) = true) ↔
      (∀ part ∈ [1], (⟨2, part⟩ : ChunkPartType) ∈ [(⟨2, 0⟩ : ChunkPartType), ⟨2, 2⟩]) ∨
      (2 : SliceType).getNumberOfDataParts + 1 ≤ lostPart.readOperations.length ∨
      ∃ part ∈ [1], (⟨2, part⟩ : ChunkPartType) ∈ [⟨2, 0⟩] :=
  isFinishingPossible_exact (new (fun n => n) fun _ => none) (by decide)
    (forall_mem_singleton.mpr ⟨by decide, by decide⟩)
    (by decide)
    (forall_mem_cons.mpr ⟨⟨by decide, by decide⟩,
      forall_mem_singleton.mpr ⟨by decide, by decide⟩⟩)
    (by decide) 0 1 true buildPlanFor_lostPart (by decide) (by decide)

/-- One of the two parts that the lost one is read from cannot be read: the plan counts as one
that can still finish, and the other part alone does not finish it. -/
theorem isFinishingPossible_lostPart :
    ((new (fun n => n) fun _ => none).prepare 2 [1] [⟨2, 0⟩, ⟨2, 2⟩]).buildPlanFor 0 1 true
        = lostPart ∧
      lostPart.isFinishingPossible [⟨2, 0⟩] = true ∧
      lostPart.isReadingFinished (lostPart.remaining [⟨2, 0⟩]) = false :=
  ⟨buildPlanFor_lostPart, by decide, by decide⟩

end SliceReadPlanner

/-! ## Executing a plan -/

/-- What poll and the next read bring for an operation that is being read: nothing, some data,
the rest of it, a failed connection, or data with a wrong checksum. -/
inductive ReadOutcome where
  | nothing | progress | finished | failed | damaged
deriving Repr, DecidableEq

/-- What a call of poll ends with: the outcomes of the operations by their numbers in the plan,
an interruption, or an error. -/
inductive PollResult where
  | ready (outcome : ℕ → ReadOutcome)
  | interrupted
  | error

/-- What a pass of the loop meets. -/
structure Round where
  waveExpired : Bool
  poll : PollResult

/-- The state of the loop. The operations that are being read are known by their numbers in the
plan, in place of the descriptors of their connections. -/
structure ReadPlanExecutor where
  wave : ℕ
  executors : List (ℕ × ChunkPartType)
  availableParts : List ChunkPartType
  networkingFailures : List ChunkPartType
  failedReads : ℕ
deriving Repr, DecidableEq

namespace ReadPlanExecutor

/-- Before anything is started. -/
def new : ReadPlanExecutor := ⟨0, [], [], [], 0⟩

/-- [SPEC read_plan_executor.cc:61-100] An operation of size zero is complete at once;
for any other one it is given whether the connection comes about. -/
def startReadOperation (connects : ℕ → Bool) (e : ReadPlanExecutor)
    (entry : (ChunkPartType × ReadOperation) × ℕ) : ReadPlanExecutor :=
  if entry.1.2.requestSize = 0 then
    { e with availableParts := e.availableParts ++ [entry.1.1] }
  else if connects entry.2 then
    { e with executors := e.executors ++ [(entry.2, entry.1.1)] }
  else
    { e with
      networkingFailures := e.networkingFailures ++ [entry.1.1]
      failedReads := e.failedReads + 1 }

/-- The operations of a wave, with their numbers. -/
def operationsOf (plan : ReadPlan) (wave : ℕ) : List ((ChunkPartType × ReadOperation) × ℕ) :=
  plan.readOperations.zipIdx.filter (·.1.2.wave = wave)

/-- [SPEC read_plan_executor.cc:157-171] None when the exception is thrown. -/
def startReadsForWave (plan : ReadPlan) (connects : ℕ → Bool) (wave : ℕ) (e : ReadPlanExecutor) :
    Option ReadPlanExecutor :=
  let started := (operationsOf plan wave).foldl (startReadOperation connects)
    { e with wave := wave, failedReads := 0 }
  if plan.isFinishingPossible started.networkingFailures then some started else none

/-- [SPEC read_plan_executor.cc:239-269] None when an exception leaves the loop. -/
def readSomeData (plan : ReadPlan) (outcome : ReadOutcome) (fd : ℕ × ChunkPartType)
    (e : ReadPlanExecutor) : Option ReadPlanExecutor :=
  match outcome with
  | .nothing | .progress => some e
  | .finished =>
      some { e with
        executors := e.executors.erase fd
        availableParts := e.availableParts ++ [fd.2] }
  | .failed =>
      let failed : ReadPlanExecutor :=
        { e with
          executors := e.executors.erase fd
          networkingFailures := e.networkingFailures ++ [fd.2]
          failedReads := e.failedReads + 1 }
      if plan.isFinishingPossible failed.networkingFailures then some failed else none
  | .damaged => none

/-- Where the loop is: it goes on, it is left with enough parts, or by an exception. -/
inductive Progress where
  | running (e : ReadPlanExecutor)
  | finished (e : ReadPlanExecutor)
  | thrown
deriving Repr, DecidableEq

/-- One pass of the loop [SPEC read_plan_executor.cc:295-339], while the total timeout
has not expired. -/
def pass (plan : ReadPlan) (connects : ℕ → Bool) (round : Round) (e : ReadPlanExecutor) :
    Progress :=
  match
    (if round.waveExpired ∨ e.failedReads ≠ 0 then
      startReadsForWave plan connects (e.wave + 1) e
    else some e) with
  | none => .thrown
  | some e =>
      -- nothing to poll: the next pass starts the next wave
      if e.executors = [] then .running { e with failedReads := e.failedReads + 1 }
      else
        match round.poll with
        | .interrupted => .running e
        | .error => .thrown
        | .ready outcome =>
            match e.executors.foldlM (fun e fd => readSomeData plan (outcome fd.1) fd e) e with
            | none => .thrown
            | some e => if plan.isReadingFinished e.availableParts then .finished e else .running e

/-- [SPEC read_plan_executor.cc:278-340] Where the loop is after some passes. -/
def after (plan : ReadPlan) (connects : ℕ → Bool) (rounds : ℕ → Round) : ℕ → Progress
  | 0 =>
      match startReadsForWave plan connects 0 new with
      | none => .thrown
      | some e => .running e
  | n + 1 =>
      match after plan connects rounds n with
      | .running e => pass plan connects (rounds n) e
      | ended => ended

/-- Every operation that is being read comes to its end. -/
def Fair (plan : ReadPlan) (connects : ℕ → Bool) (rounds : ℕ → Round) : Prop :=
  ∀ n e, after plan connects rounds n = .running e → ∀ fd ∈ e.executors,
    ∃ m, n ≤ m ∧ ∀ e', after plan connects rounds m = .running e' → fd ∉ e'.executors

/-- In the wave there is an operation of positive size that gets its connection. -/
def Begins (plan : ReadPlan) (connects : ℕ → Bool) (wave : ℕ) : Prop :=
  ∃ entry ∈ operationsOf plan wave, entry.1.2.requestSize ≠ 0 ∧ connects entry.2 = true

/-- In the wave or in a later one something is begun that has to be waited for. -/
def Followed (plan : ReadPlan) (connects : ℕ → Bool) (wave : ℕ) : Prop :=
  ∃ later, wave ≤ later ∧ Begins plan connects later

/-- The parts that are there as soon as a wave is started. -/
def zeroSized (plan : ReadPlan) (wave : ℕ) : List ChunkPartType :=
  ((operationsOf plan wave).filter (·.1.2.requestSize = 0)).map (·.1.1)

/-- When the start of a wave alone makes the parts enough, something is being read at this time, or
is begun in the wave or in a later one. -/
structure Resumes (plan : ReadPlan) (connects : ℕ → Bool) (rounds : ℕ → Round) : Prop where
  first : plan.isReadingFinished (zeroSized plan 0) = true → Followed plan connects 0
  later : ∀ n e, after plan connects rounds n = .running e →
    (rounds n).waveExpired = true ∨ e.failedReads ≠ 0 →
    plan.isReadingFinished e.availableParts = false →
    plan.isReadingFinished (e.availableParts ++ zeroSized plan (e.wave + 1)) = true →
      e.executors ≠ [] ∨ Followed plan connects (e.wave + 1)

/-! ## What a pass does -/

variable {plan : ReadPlan} {connects : ℕ → Bool} {round : Round} {e e' : ReadPlanExecutor}

/-- Starting operations adds those of size zero to the parts, and those that connect to what is
being read. -/
theorem foldl_startReadOperation (connects : ℕ → Bool)
    (entries : List ((ChunkPartType × ReadOperation) × ℕ)) : ∀ e : ReadPlanExecutor,
      (entries.foldl (startReadOperation connects) e).wave = e.wave ∧
      (entries.foldl (startReadOperation connects) e).availableParts =
        e.availableParts ++ (entries.filter (·.1.2.requestSize = 0)).map (·.1.1) ∧
      (entries.foldl (startReadOperation connects) e).executors =
        e.executors ++ (entries.filter fun entry =>
          entry.1.2.requestSize ≠ 0 ∧ connects entry.2).map fun entry => (entry.2, entry.1.1) := by
  induction entries with
  | nil => simp
  | cons entry entries ih =>
    intro e
    rw [foldl_cons]
    obtain ⟨wave, parts, running⟩ := ih (startReadOperation connects e entry)
    rw [wave, parts, running]
    unfold startReadOperation
    by_cases zero : entry.1.2.requestSize = 0
    · simp [zero]
    · by_cases connected : connects entry.2 = true
      · simp [zero, connected]
      · simp [zero, connected]

/-- What the start of a wave leads to. -/
structure Started (plan : ReadPlan) (connects : ℕ → Bool) (wave : ℕ) (e e' : ReadPlanExecutor) :
    Prop where
  current : e'.wave = wave
  parts : e'.availableParts = e.availableParts ++ zeroSized plan wave
  kept : ∀ fd ∈ e.executors, fd ∈ e'.executors
  begun : Begins plan connects wave → e'.executors ≠ []

theorem started_of_startReadsForWave {wave : ℕ}
    (run : startReadsForWave plan connects wave e = some e') : Started plan connects wave e e' := by
  unfold startReadsForWave at run
  dsimp only at run
  split at run
  · obtain rfl := Option.some.inj run
    obtain ⟨eq, parts, running⟩ := foldl_startReadOperation connects
      (operationsOf plan wave) { e with wave := wave, failedReads := 0 }
    refine ⟨eq, parts, fun fd mem => ?_, ?_⟩
    · rw [running]
      exact mem_append_left _ mem
    · rintro ⟨entry, mem, pos, connected⟩
      refine ne_nil_of_mem (a := (entry.2, entry.1.1)) ?_
      rw [running]
      refine mem_append_right _ (mem_map.mpr ⟨entry, ?_, rfl⟩)
      exact mem_filter.mpr ⟨mem, by simp [pos, connected]⟩
  · cases run

/-- The parts read so far stay. -/
theorem parts_foldlM (outcome : ℕ → ReadOutcome) (fds : List (ℕ × ChunkPartType)) :
    ∀ e e' : ReadPlanExecutor,
      fds.foldlM (fun e fd => readSomeData plan (outcome fd.1) fd e) e = some e' →
        e.availableParts <+: e'.availableParts := by
  induction fds with
  | nil =>
    intro e e' run
    obtain rfl := Option.some.inj run
    exact prefix_rfl
  | cons fd fds ih =>
    intro e e' run
    rw [foldlM_cons] at run
    obtain ⟨next, first, rest⟩ := Option.bind_eq_some_iff.mp run
    refine List.IsPrefix.trans ?_ (ih next e' rest)
    unfold readSomeData at first
    split at first
    · obtain rfl := Option.some.inj first
      exact prefix_rfl
    · obtain rfl := Option.some.inj first
      exact prefix_rfl
    · obtain rfl := Option.some.inj first
      exact prefix_append _ _
    · dsimp only at first
      split at first
      · obtain rfl := Option.some.inj first
        exact prefix_rfl
      · cases first
    · cases first

/-- What a pass that goes on has done: at most one more wave is started; then there is nothing
to poll, or poll was interrupted, or what was read is not enough. -/
theorem running_of_pass (run : pass plan connects round e = .running e') :
    ∃ t, (t = e ∧ e.failedReads = 0 ∨
        (round.waveExpired = true ∨ e.failedReads ≠ 0) ∧ Started plan connects (e.wave + 1) e t) ∧
      (t.executors = [] ∧ e' = { t with failedReads := t.failedReads + 1 } ∨
        t.executors ≠ [] ∧ e' = t ∨ t.executors ≠ [] ∧ t.availableParts <+: e'.availableParts ∧
          plan.isReadingFinished e'.availableParts = false) := by
  unfold pass at run
  split at run
  · cases run
  next t begun =>
    refine ⟨t, ?_, ?_⟩
    · split at begun
      next starts => exact .inr ⟨starts, started_of_startReadsForWave begun⟩
      next idle =>
        exact .inl ⟨(Option.some.inj begun).symm, by simpa using (not_or.mp idle).2⟩
    · split at run
      next nothing =>
        cases run
        exact .inl ⟨nothing, rfl⟩
      next something =>
        split at run
        · cases run
          exact .inr (.inl ⟨something, rfl⟩)
        · cases run
        · split at run
          · cases run
          next final polled =>
            split at run
            · cases run
            next unfinished =>
              cases run
              exact .inr (.inr ⟨something, parts_foldlM _ _ _ _ polled,
                Bool.eq_false_iff.mpr unfinished⟩)

/-- More parts do not undo that there are enough. -/
theorem isReadingFinished_of_more {parts more : List ChunkPartType} (longer : parts <+: more)
    (done : plan.isReadingFinished parts = true) : plan.isReadingFinished more = true := by
  rw [ReadPlan.isReadingFinished_iff] at done ⊢
  refine done.imp (fun enough => enough.trans longer.length_le) fun all info mem => ?_
  obtain ⟨cpt, there, eq⟩ := any_eq_true.mp (all info mem)
  exact any_eq_true.mpr ⟨cpt, longer.subset there, eq⟩

/-- A pass that goes on although the parts are enough has not polled, or was interrupted: nothing
that is being read is dropped, and with nothing to read the next pass starts a wave. -/
theorem pass_of_finished (run : pass plan connects round e = .running e')
    (enough : plan.isReadingFinished e.availableParts = true) :
    plan.isReadingFinished e'.availableParts = true ∧ e.executors ⊆ e'.executors ∧
      (e'.executors = [] → e'.failedReads ≠ 0 ∧ (e'.wave = e.wave ∧ e.failedReads = 0 ∨
          e'.wave = e.wave + 1 ∧ ¬Begins plan connects e'.wave)) := by
  obtain ⟨t, start, rest⟩ := running_of_pass run
  have parts : e.availableParts <+: t.availableParts := by
    obtain ⟨rfl, -⟩ | ⟨-, started⟩ := start
    · exact prefix_rfl
    · exact started.parts ▸ prefix_append _ _
  have kept : e.executors ⊆ t.executors := by
    obtain ⟨rfl, -⟩ | ⟨-, started⟩ := start
    · exact List.Subset.refl _
    · exact started.kept
  have still := isReadingFinished_of_more parts enough
  obtain ⟨nothing, rfl⟩ | ⟨something, rfl⟩ | ⟨-, more, unfinished⟩ := rest
  · refine ⟨still, kept, fun _ => ⟨Nat.succ_ne_zero _, ?_⟩⟩
    obtain ⟨rfl, none⟩ | ⟨-, started⟩ := start
    · exact .inl ⟨rfl, none⟩
    · refine .inr ⟨started.current, fun begins => started.begun ?_ nothing⟩
      exact started.current ▸ begins
  · exact ⟨still, kept, fun nothing => absurd nothing something⟩
  · rw [isReadingFinished_of_more more still] at unfinished
    cases unfinished

/-! ## The loop ends -/

section Endless

variable {rounds : ℕ → Round} {state : ℕ → ReadPlanExecutor}
  (runs : ∀ n, after plan connects rounds n = .running (state n))
include runs

theorem pass_state (n : ℕ) :
    pass plan connects (rounds n) (state n) = .running (state (n + 1)) := by
  have next := runs (n + 1)
  simpa only [after, runs n] using next

variable {n : ℕ} (enough : plan.isReadingFinished (state n).availableParts = true)
include enough

/-- Once the parts are enough they stay so, and what is being read stays too. -/
theorem finished_later {m : ℕ} (later : n ≤ m) :
    plan.isReadingFinished (state m).availableParts = true ∧
      (state n).executors ⊆ (state m).executors := by
  induction m, later using Nat.le_induction with
  | base => exact ⟨enough, List.Subset.refl _⟩
  | succ m _ ih =>
    obtain ⟨still, kept, -⟩ := pass_of_finished (pass_state runs m) ih.1
    exact ⟨still, List.Subset.trans ih.2 kept⟩

/-- As everything that is being read comes to its end, nothing is. -/
theorem executors_eq_nil (h : Fair plan connects rounds) {m : ℕ} (later : n ≤ m) :
    (state m).executors = [] := by
  refine eq_nil_iff_forall_not_mem.mpr fun fd mem => ?_
  obtain ⟨end', after', gone⟩ := h m (state m) (runs m) fd mem
  have still := (finished_later runs enough later).1
  exact gone (state end') (runs end') ((finished_later runs still after').2 mem)

/-- From then on a wave is started in every pass but possibly the first, and none of them begins
anything. -/
theorem waves_started (h : Fair plan connects rounds) (k : ℕ) :
    (state n).wave + k ≤ (state (n + 1 + k)).wave ∧ (state (n + 1 + k)).failedReads ≠ 0 ∧
      ∀ wave, (state n).wave < wave → wave ≤ (state (n + 1 + k)).wave →
        ¬Begins plan connects wave := by
  induction k with
  | zero =>
    obtain ⟨-, -, step⟩ := pass_of_finished (pass_state runs n) enough
    obtain ⟨failed, waves⟩ := step (executors_eq_nil runs enough h (Nat.le_succ n))
    obtain ⟨eq, -⟩ | ⟨next, none⟩ := waves
    · exact ⟨eq.ge, failed, fun wave above below => absurd (eq ▸ below) above.not_ge⟩
    · refine ⟨(Nat.le_succ _).trans next.ge, failed, fun wave above below => ?_⟩
      obtain rfl : wave = (state (n + 1)).wave := le_antisymm below (next ▸ above)
      exact none
  | succ k ih =>
    obtain ⟨reached, failed, none⟩ := ih
    have still := (finished_later runs enough (by omega : n ≤ n + 1 + k)).1
    obtain ⟨-, -, step⟩ := pass_of_finished (pass_state runs (n + 1 + k)) still
    obtain ⟨failed', waves⟩ :=
      step (executors_eq_nil runs enough h (by omega : n ≤ n + 1 + k + 1))
    obtain ⟨-, absent⟩ | ⟨next, none'⟩ := waves
    · exact absurd absent failed
    · rw [show n + 1 + (k + 1) = n + 1 + k + 1 from rfl]
      refine ⟨by omega, failed', fun wave above below => ?_⟩
      obtain below | rfl := below.lt_or_eq
      · exact none wave above (by omega)
      · exact none'

/-- When the parts become enough without the loop being left, a wave was started while something was
being read, or one that something follows. -/
theorem followed_of_first (h : Resumes plan connects rounds)
    (first : ∀ m < n, plan.isReadingFinished (state m).availableParts = false) :
    (state n).executors ≠ [] ∨ Followed plan connects (state n).wave ∧
      (Begins plan connects (state n).wave → (state n).executors ≠ []) := by
  cases n with
  | zero =>
    have initial := runs 0
    unfold after at initial
    split at initial
    · cases initial
    next started =>
      cases initial
      have start := started_of_startReadsForWave started
      rw [start.parts] at enough
      rw [start.current]
      exact .inr ⟨h.first enough, start.begun⟩
  | succ n =>
    have prev := first n (Nat.lt_succ_self n)
    obtain ⟨t, start, rest⟩ := running_of_pass (pass_state runs n)
    have same : (state (n + 1)).availableParts = t.availableParts ∧
        (state (n + 1)).wave = t.wave ∧ (state (n + 1)).executors = t.executors := by
      obtain ⟨-, eq⟩ | ⟨-, eq⟩ | ⟨-, -, unfinished⟩ := rest
      · rw [eq]
        exact ⟨rfl, rfl, rfl⟩
      · rw [eq]
        exact ⟨rfl, rfl, rfl⟩
      · rw [enough] at unfinished
        cases unfinished
    rw [same.1] at enough
    rw [same.2.1, same.2.2]
    obtain ⟨rfl, -⟩ | ⟨starts, started⟩ := start
    · rw [prev] at enough
      cases enough
    rw [started.parts] at enough
    rw [started.current]
    obtain reading | followed := h.later n (state n) (runs n) starts prev enough
    · obtain ⟨fd, mem⟩ := exists_mem_of_ne_nil _ reading
      exact .inl (ne_nil_of_mem (started.kept fd mem))
    · exact .inr ⟨followed, started.begun⟩

end Endless

/-- When each operation that is being read completes or fails in the end, and something has to be
waited for whenever operations of size zero complete the parts, the loop is left once the parts
are enough. -/
theorem ends_when_finished {plan : ReadPlan} {connects : ℕ → Bool} {rounds : ℕ → Round}
    (fair : Fair plan connects rounds) (resumes : Resumes plan connects rounds)
    (enough : ∃ n e, after plan connects rounds n = .running e ∧
      plan.isReadingFinished e.availableParts = true) :
    ∃ n, ∀ e, after plan connects rounds n ≠ .running e := by
  by_contra endless
  push Not at endless
  choose state runs using endless
  obtain ⟨n, e, run, finished⟩ := enough
  obtain rfl : e = state n := Progress.running.inj (run ▸ runs n)
  -- the first moment with enough parts
  have some : ∃ n, plan.isReadingFinished (state n).availableParts = true := ⟨n, finished⟩
  have first := Nat.find_spec some
  have idle := executors_eq_nil runs first fair le_rfl
  obtain ⟨⟨wave, later, begins⟩, begun⟩ := (followed_of_first runs first resumes
    fun m earlier => Bool.eq_false_iff.mpr (Nat.find_min some earlier)).resolve_left
      fun reading => reading idle
  obtain above | rfl := later.lt_or_eq
  · obtain ⟨reached, -, none⟩ := waves_started runs first fair wave
    exact none wave above (by omega) begins
  · exact begun begins idle

/-- The last block of the first of three data parts is lost. The other data parts do not have
that block, so reads of them have size zero. -/
def lastBlock (type : SliceType) (extra : List (ChunkPartType × ReadOperation)) : ReadPlan where
  sliceType := type
  requestedParts := [⟨0, 65536⟩]
  bufferPartSize := 65536
  readOperations :=
    [(⟨type, 3⟩, ⟨22347776, 65536, 65536, 0⟩), (⟨type, 4⟩, ⟨22347776, 65536, 131072, 0⟩),
      (⟨type, 1⟩, ⟨22347776, 0, 196608, 0⟩), (⟨type, 2⟩, ⟨22347776, 0, 262144, 1⟩)] ++ extra
  readBufferSize := 327680 + extra.length * 65536
  postprocessOperations := []

/-- The first read completes, the others fail. -/
def firstCompletes (op : ℕ) : ReadOutcome :=
  if op = 0 then .finished else .failed

/-- With a third parity part, read in the wave of the last operation of size zero. -/
theorem ends_when_finished_lastBlock :
    ∃ n, ∀ e, after (lastBlock 44 [(⟨44, 5⟩, ⟨22347776, 65536, 327680, 1⟩)]) (fun _ => true)
      (fun n => ⟨false, if n = 1 then .interrupted else .ready firstCompletes⟩) n ≠ .running e := by
  refine ends_when_finished ?_ ?_ ?_
  · intro n e run
    -- the third pass leaves the loop
    have ended : ∀ m, after (lastBlock 44 [(⟨44, 5⟩, ⟨22347776, 65536, 327680, 1⟩)])
        (fun _ => true) (fun n => ⟨false, if n = 1 then .interrupted else .ready firstCompletes⟩)
        (m + 3) = .finished ⟨1, [], [⟨44, 1⟩, ⟨44, 3⟩, ⟨44, 2⟩], [⟨44, 4⟩, ⟨44, 5⟩], 1⟩ := by
      intro m
      induction m with
      | zero => decide
      | succ m ih => rw [after, ih]
    refine fun fd _ => ⟨n + 3, Nat.le_add_right n 3, fun e' run' => ?_⟩
    rw [ended n] at run'
    cases run'
  · refine ⟨fun finished => absurd finished (by decide), fun n e _ _ unfinished enough => .inr ?_⟩
    cases wave : e.wave with
    | zero => exact ⟨1, le_rfl, by simp [Begins, operationsOf, lastBlock]⟩
    | succ later =>
      have none : zeroSized (lastBlock 44 [(⟨44, 5⟩, ⟨22347776, 65536, 327680, 1⟩)])
          (later + 1 + 1) = [] := by
        simp [zeroSized, operationsOf, lastBlock]
      rw [wave, none, append_nil, unfinished] at enough
      cases enough
  · exact ⟨2, ⟨1, [(4, ⟨44, 5⟩)], [⟨44, 1⟩, ⟨44, 3⟩, ⟨44, 2⟩], [⟨44, 4⟩], 0⟩, by decide, by decide⟩

theorem buildPlanFor_lastBlock : ((SliceReadPlanner.new (fun n => n) fun _ => none).prepare 43 [0]
      [⟨43, 3⟩, ⟨43, 4⟩, ⟨43, 1⟩, ⟨43, 2⟩]).buildPlanFor 341 1 true = lastBlock 43 [] := by
  have prepared : (SliceReadPlanner.new (fun n => n) fun _ => none).prepare 43 [0]
      [⟨43, 3⟩, ⟨43, 4⟩, ⟨43, 1⟩, ⟨43, 2⟩] =
      ⟨fun n => n, fun _ => none, 43, [0],
        [(⟨43, 3⟩ : ChunkPartType), ⟨43, 4⟩, ⟨43, 1⟩, ⟨43, 2⟩].mergeSort
          (fun _ _ => decide ((1 : ℚ) ≤ 1)), false, true⟩ := rfl
  rw [prepared, SliceReadPlanner.mergeSort_unscored]
  decide

/-- From the second pass on there is nothing to poll: each pass starts a wave without
operations. -/
theorem after_lastBlock (n : ℕ) :
    after (lastBlock 43 []) (fun _ => true) (fun _ => ⟨false, .ready firstCompletes⟩) (n + 2) =
      .running ⟨n + 1, [], [⟨43, 1⟩, ⟨43, 3⟩, ⟨43, 2⟩], [⟨43, 4⟩], 1⟩ := by
  induction n with
  | zero => decide
  | succ n ih =>
    have nothing : operationsOf (lastBlock 43 []) (n + 1 + 1) = [] := by
      simp [operationsOf, lastBlock]
    have possible : (lastBlock 43 []).isFinishingPossible [⟨43, 4⟩] = true := by decide
    rw [after, ih]
    simp [pass, startReadsForWave, nothing, possible]

/-- One read completes, another fails, and the operation of size zero that is started for it
completes the parts when nothing is left to poll: the loop goes on for ever. -/
theorem never_ends_lastBlock :
    ((SliceReadPlanner.new (fun n => n) fun _ => none).prepare 43 [0]
        [⟨43, 3⟩, ⟨43, 4⟩, ⟨43, 1⟩, ⟨43, 2⟩]).buildPlanFor 341 1 true = lastBlock 43 [] ∧
      Fair (lastBlock 43 []) (fun _ => true) (fun _ => ⟨false, .ready firstCompletes⟩) ∧
      (lastBlock 43 []).isReadingFinished [⟨43, 1⟩, ⟨43, 3⟩, ⟨43, 2⟩] = true ∧
      ∀ n, after (lastBlock 43 []) (fun _ => true) (fun _ => ⟨false, .ready firstCompletes⟩)
        (n + 2) = .running ⟨n + 1, [], [⟨43, 1⟩, ⟨43, 3⟩, ⟨43, 2⟩], [⟨43, 4⟩], 1⟩ := by
  refine ⟨buildPlanFor_lastBlock, fun n e _ fd _ => ⟨n + 2, Nat.le_add_right n 2, ?_⟩,
    by decide, after_lastBlock⟩
  intro e' run
  rw [after_lastBlock n] at run
  cases run
  exact not_mem_nil

end ReadPlanExecutor

end LeilFS.Reading
