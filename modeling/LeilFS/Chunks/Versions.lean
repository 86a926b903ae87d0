/-
Module: LeilFS.Chunks.Versions
Purpose: The valid parts of a chunk have the version of the chunk, in every state of the
  registry in which no repair has taken the chunk away from valid parts.
Trusted boundary: none
-/
import LeilFS.Chunks.Events
import LeilFS.Lib.ListModify
import LeilFS.Lib.StepSystem

namespace LeilFS.Chunks

open List Chunk

/-! ## Parts of one version -/

/-- The valid ones of some parts have the version. -/
def Versioned (version : UInt32) (parts : List ChunkPart) : Prop :=
  ∀ part ∈ parts, part.isValid = true → part.version = version

instance (version : UInt32) (parts : List ChunkPart) : Decidable (Versioned version parts) :=
  inferInstanceAs (Decidable (∀ part ∈ parts, part.isValid = true → part.version = version))

/-- A change of a part that makes no part valid and no valid part of another version. -/
def ChunkPart.Keeps (f : ChunkPart → ChunkPart) : Prop :=
  ∀ part, (f part).isValid = true → part.isValid = true ∧ (f part).version = part.version

namespace ChunkPart

section

variable (part : ChunkPart)
include part

theorem makeBusy_version : part.makeBusy.version = part.version := by
  unfold makeBusy
  split <;> rfl

theorem makeBusy_isValid : part.makeBusy.isValid = part.isValid := by
  obtain ⟨csid, state, version, type, beingWritten⟩ := part
  cases state <;> rfl

theorem makeIdle_version : part.makeIdle.version = part.version := by
  unfold makeIdle
  split <;> rfl

theorem makeIdle_isValid : part.makeIdle.isValid = part.isValid := by
  obtain ⟨csid, state, version, type, beingWritten⟩ := part
  cases state <;> rfl

/-- A mark for deletion is no change of the version. -/
theorem setTodel_version (todel : Bool) : (part.setTodel todel).version = part.version := by
  unfold setTodel
  split
  · rfl
  · split <;> rfl

@[simp] theorem markAsHavingWrongVersion_isValid :
    part.markAsHavingWrongVersion.isValid = false := rfl

@[simp] theorem invalidate_isValid : part.invalidate.isValid = false := rfl

end

/-- A part that is made invalid is not valid, whatever it was. -/
theorem keeps_invalidate : Keeps invalidate := by
  intro part valid
  simp at valid

theorem keeps_delete : Keeps fun part => { part with state := .del } := by
  intro part valid
  simp [isValid, PartState.isValid] at valid

/-- A change under a condition keeps what the change keeps. -/
theorem Keeps.ite {f : ChunkPart → ChunkPart} (h : Keeps f) (condition : ChunkPart → Prop)
    [DecidablePred condition] : Keeps fun part => if condition part then f part else part := by
  intro part
  by_cases holds : condition part
  · simpa [holds] using h part
  · simp [holds]

/-- A part that is reported is not valid, or has the version of the chunk. -/
theorem reported_version (part : ChunkPart) {chunkVersion version : UInt32} {todel : Bool}
    (valid : (part.reported chunkVersion version todel).isValid = true) :
    (part.reported chunkVersion version todel).version = chunkVersion := by
  have live : part.state ≠ .del ∧ part.state ≠ .invalid →
      part.reported chunkVersion version todel =
        if version ≠ chunkVersion then
          ({ part with version := version } : ChunkPart).markAsHavingWrongVersion
        else ({ part with version := version } : ChunkPart).setTodel todel := by
    unfold reported
    split <;> simp_all
  by_cases state : part.state ≠ .del ∧ part.state ≠ .invalid
  · rw [live state] at valid ⊢
    by_cases eq : version = chunkVersion
    · simp [eq, setTodel_version]
    · simp [eq] at valid
  · rcases (by tauto : part.state = .del ∨ part.state = .invalid) with del | invalid
    · simp [reported, del] at valid
    · simp [reported, invalid, isValid, PartState.isValid] at valid

end ChunkPart

namespace Versioned

variable {version : UInt32} {parts : List ChunkPart} {f : ChunkPart → ChunkPart}
  (versioned : Versioned version parts)

include versioned

/-- All parts are changed. -/
theorem map (h : ChunkPart.Keeps f) : Versioned version (parts.map f) := by
  intro part mem valid
  obtain ⟨old, oldMember, rfl⟩ := mem_map.mp mem
  obtain ⟨oldValid, eq⟩ := h old valid
  rw [eq]
  exact versioned old oldMember oldValid

theorem filter (keep : ChunkPart → Bool) : Versioned version (parts.filter keep) :=
  fun part mem => versioned part (mem_of_mem_filter mem)

theorem append {more : List ChunkPart} (moreVersioned : Versioned version more) :
    Versioned version (parts ++ more) := by
  intro part mem
  rcases mem_append.mp mem with old | new
  · exact versioned part old
  · exact moreVersioned part new

/-- One part is changed. -/
theorem modify (index : Nat)
    (changed : ∀ part ∈ parts, (f part).isValid = true → (f part).version = version) :
    Versioned version (parts.modify index f) := by
  intro part mem valid
  rcases mem_or_eq_of_mem_modify mem with old | ⟨old, found, rfl⟩
  · exact versioned part old valid
  · exact changed old (mem_of_getElem? found) valid

theorem modify_keeps (h : ChunkPart.Keeps f) (index : Nat) :
    Versioned version (parts.modify index f) := by
  refine versioned.modify index ?_
  intro part mem valid
  obtain ⟨oldValid, eq⟩ := h part valid
  rw [eq]
  exact versioned part mem oldValid

end Versioned

/-! ## Chunks -/

namespace Chunk

/-- Every valid part has the version of the chunk. -/
def Coherent (c : Chunk) : Prop := Versioned c.version c.parts

instance (c : Chunk) : Decidable c.Coherent :=
  inferInstanceAs (Decidable (Versioned c.version c.parts))

variable {c : Chunk} {env : Environment}

/-- A chunk starts without parts. -/
theorem coherent_new (id : ChunkId) (version : UInt32) : (new id version).Coherent := by
  intro part mem
  simp [new] at mem

/-- The parts that a move of the version leaves behind do not count any more, whatever
they were. -/
theorem coherent_invalidateStaleParts (env : Environment) (c : Chunk) :
    (c.invalidateStaleParts env).Coherent := by
  unfold invalidateStaleParts
  dsimp only
  split
  next found =>
    intro part mem valid
    obtain ⟨old, oldMember, rfl⟩ := mem_map.mp mem
    change _ = c.version
    split at valid
    · simp at valid
    next fresh =>
      rw [if_neg fresh]
      simpa [valid] using fresh
  next clean =>
    intro part mem valid
    by_contra other
    exact clean (any_eq_true.mpr ⟨part, mem, by simp [valid, other]⟩)

/-- A move of the version ends with the removal of stale parts, so that nothing is asked of the
chunk before. -/
theorem coherent_moveVersion (env : Environment) (operation : ChunkOperation)
    (needsLocking : Bool) (planned : List PlannedPart) (c : Chunk) :
    (c.moveVersion env operation needsLocking planned).Coherent :=
  coherent_invalidateStaleParts env _

theorem coherent_emergencyIncreaseVersion (env : Environment) (c : Chunk) :
    (c.emergencyIncreaseVersion env).Coherent :=
  coherent_moveVersion env _ _ _ c

/-- A part that is locked for an operation keeps its version and stays valid if it was. -/
theorem versioned_lockPart {version : UInt32} {state : List ChunkPart × Bool}
    (versioned : Versioned version state.1) (planned : PlannedPart) :
    Versioned version (lockPart env state planned).1 := by
  unfold lockPart
  split
  · exact versioned
  split
  · refine Versioned.modify_keeps versioned ?_ _
    intro part valid
    exact ⟨(part.makeBusy_isValid).symm.trans valid, part.makeBusy_version⟩
  · exact versioned

/-- A repaired chunk takes a version of its parts, and the parts of the old version have to
go. -/
theorem coherent_setRepaired {version : UInt32} (nothingValid : c.parts.any (·.isValid) = false) :
    (c.setRepaired env version).Coherent := by
  intro part mem valid
  obtain ⟨old, oldMember, rfl⟩ := mem_map.mp mem
  split at valid
  next recovered =>
      rw [if_pos recovered]
      exact recovered.2
  next kept =>
    have stale := any_eq_false.mp nothingValid old oldMember
    exact absurd valid stale

section Coherent

variable {goal prevGoal newGoal : GoalId} {csid : Csid} {type : ChunkPartType} {version : UInt32}
  {lockParts locks ok todel maintained : Bool} {planned : List PlannedPart}
  {original : List ChunkPart} {busyServer : Csid → Bool} {candidate : Nat} {choice : WorkerChoice}
  (coherent : c.Coherent)
include coherent

theorem Coherent.deleteFile : (c.deleteFile env goal).1.Coherent := by
  unfold Chunk.deleteFile
  split <;> exact coherent

theorem Coherent.addFile : (c.addFile env goal).1.Coherent := by
  unfold Chunk.addFile
  split <;> exact coherent

theorem Coherent.changeFileGoal : (c.changeFileGoal env prevGoal newGoal).1.Coherent := by
  unfold Chunk.changeFileGoal
  split <;> exact coherent

/-- Counts of files have nothing to do with parts. -/
theorem Coherent.addFirstFile : (c.addFirstFile env goal).Coherent := by
  unfold Chunk.addFirstFile
  split
  · exact coherent.addFile
  · exact coherent

/-- The planned parts are locked one by one. -/
theorem Coherent.lockOperation : (c.lockOperation env lockParts planned).Coherent := by
  have folded : ∀ state : List ChunkPart × Bool, Versioned c.version state.1 →
      Versioned c.version (planned.foldl (lockPart env) state).1 := by
    induction planned with
    | nil => exact fun state versioned => versioned
    | cons part planned ih => exact fun state versioned => ih _ (versioned_lockPart versioned part)
  cases lockParts with
  | false => exact coherent
  | true => exact folded (c.parts, false) coherent

/-- New parts get the version of their chunk. -/
theorem Coherent.append_newParts {parts : List ChunkPart}
    (new : ∀ part ∈ parts, part.version = c.version) :
    ({ c with parts := c.parts ++ parts } : Chunk).Coherent :=
  Versioned.append coherent fun part mem _ => new part mem

/-- A new chunk is created on the servers of the plan, with its own version. -/
theorem Coherent.createOperation : (c.createOperation env goal planned).Coherent := by
  refine Coherent.append_newParts (Coherent.addFirstFile (by exact coherent)) ?_
  intro part mem
  obtain ⟨plannedPart, -, found⟩ := mem_filterMap.mp mem
  obtain ⟨server, -, rfl⟩ := Option.map_eq_some_iff.mp found
  rfl

/-- A copy has parts where the original has, with the version of the copy. -/
theorem Coherent.copyParts : (c.copyParts env locks original planned).Coherent := by
  refine Coherent.append_newParts coherent ?_
  intro part mem
  obtain ⟨plannedPart, -, found⟩ := mem_filterMap.mp mem
  obtain ⟨live, -, rfl⟩ := Option.map_eq_some_iff.mp found
  rfl

/-! ### Answers and reports of chunkservers -/

/-- The parts are changed one by one, and the version stays. -/
theorem Coherent.map {f : ChunkPart → ChunkPart}
    (h : ChunkPart.Keeps f) : ({ c with parts := c.parts.map f } : Chunk).Coherent :=
  Versioned.map coherent h

theorem Coherent.finalizeFailedOperation : c.finalizeFailedOperation.Coherent := by
  refine Coherent.map coherent (ChunkPart.Keeps.ite ?_ _)
  exact fun part valid => ⟨valid, rfl⟩

theorem Coherent.failParts : (c.failParts env csid type).Coherent := by
  unfold Chunk.failParts
  split
  · exact Coherent.map coherent (ChunkPart.keeps_invalidate.ite _)
  · exact coherent

/-- A part that fails an operation is invalid from then on; one that succeeds is idle again. -/
theorem Coherent.operationStatus : (c.operationStatus env csid type ok).Coherent := by
  unfold Chunk.operationStatus
  extract_lets d
  have answered : d.Coherent := by
    unfold d
    split
    · refine Coherent.map coherent (ChunkPart.Keeps.ite ?_ _)
      exact fun part valid => ⟨(part.makeIdle_isValid).symm.trans valid, part.makeIdle_version⟩
    · exact coherent.failParts
  split
  · exact answered
  split
  · split
    · exact coherent_emergencyIncreaseVersion env _
    · exact answered
  · exact answered.finalizeFailedOperation

/-- The version may have to move when a write ends. -/
theorem Coherent.writeEndStatus : (c.writeEndStatus env csid type ok).Coherent := by
  unfold Chunk.writeEndStatus
  extract_lets d
  have answered : d.Coherent := by
    unfold d
    split
    · refine Coherent.map coherent (ChunkPart.Keeps.ite ?_ _)
      exact fun part valid => ⟨valid, rfl⟩
    · exact coherent.failParts
  split
  · exact coherent_emergencyIncreaseVersion env _
  · exact answered

/-- Parts of servers that went away are dropped, and the version moves when one was being written.
-/
theorem Coherent.handleDisconnectedCopies : (c.handleDisconnectedCopies env).Coherent := by
  unfold Chunk.handleDisconnectedCopies
  extract_lets lost anyLostCopyBeingWritten lostCopyFound dropped marked
  have coherentDropped : dropped.Coherent := by
    unfold dropped
    split
    · exact Versioned.filter coherent _
    · exact coherent
  have coherentMarked : marked.Coherent := by
    unfold marked
    split <;> exact coherentDropped
  split
  · split
    · exact coherentMarked
    · split
      · exact coherent_emergencyIncreaseVersion env _
      · exact coherentMarked.finalizeFailedOperation
  · split
    · exact coherent_emergencyIncreaseVersion env _
    · exact coherentMarked

/-- A known part is replaced by one that has the version of the chunk if it is valid. -/
theorem Coherent.replacePart
    {part : ChunkPart} (versioned : part.isValid = true → part.version = c.version) :
    (c.replacePart csid type part).Coherent :=
  Versioned.modify coherent _ fun _ _ => versioned

/-- A new part has the version of the chunk if it is valid. -/
theorem Coherent.append_part {part : ChunkPart}
    (versioned : part.isValid = true → part.version = c.version) :
    ({ c with parts := c.parts ++ [part] } : Chunk).Coherent := by
  refine Versioned.append coherent ?_
  intro other mem valid
  rw [mem_singleton.mp mem] at valid ⊢
  exact versioned valid

/-- A server reports a part: of the version of the chunk, or marked as having a wrong one. -/
theorem Coherent.serverHasChunk : (c.serverHasChunk env csid version todel type).Coherent := by
  unfold Chunk.serverHasChunk
  split
  next part found =>
    have replaced : (c.replacePart csid type (part.reported c.version version todel)).Coherent :=
      coherent.replacePart part.reported_version
    dsimp only
    split
    · exact replaced
    · exact replaced
  next missing =>
    refine Coherent.append_part coherent ?_
    intro valid
    by_contra other
    simp [other, ChunkPart.isValid, PartState.isValid] at valid

theorem Coherent.damaged : (c.damaged env csid type).Coherent := by
  unfold Chunk.damaged
  split
  · exact coherent.replacePart (by simp)
  · exact coherent.append_part (by simp [ChunkPart.isValid, PartState.isValid])

theorem Coherent.lost : (c.lost env csid type).Coherent := by
  unfold Chunk.lost
  split
  · exact Versioned.filter coherent _
  · exact coherent

theorem Coherent.deleteStatus : (c.deleteStatus env csid type).Coherent := by
  unfold Chunk.deleteStatus
  split
  · exact Versioned.filter coherent _
  · exact coherent

/-- A replica counts only when it has the version that the chunk has now. -/
theorem Coherent.replicateStatus : (c.replicateStatus env csid version type).Coherent := by
  unfold Chunk.replicateStatus
  split
  next part found =>
    split
    · refine coherent.replacePart ?_
      simp [ChunkPart.isValid, PartState.isValid]
    · exact coherent
  next missing =>
    refine Coherent.append_part coherent ?_
    intro valid
    by_contra other
    simp [other, ChunkPart.isValid, PartState.isValid] at valid

/-! ### The worker -/

theorem Coherent.deleteAllChunkParts : (c.deleteAllChunkParts env busyServer).Coherent := by
  unfold Chunk.deleteAllChunkParts
  dsimp only
  split
  · exact Versioned.map coherent (ChunkPart.keeps_delete.ite _)
  · exact coherent

theorem Coherent.removeUnneededChunkPart : (c.removeUnneededChunkPart env candidate).Coherent := by
  unfold Chunk.removeUnneededChunkPart
  split
  · exact Versioned.modify_keeps coherent ChunkPart.keeps_delete _
  · exact coherent

/-- The jobs on a chunk are those of the cases before. -/
theorem Coherent.doChunkJobs : (c.doChunkJobs env maintained busyServer choice).Coherent := by
  have checked : ((c.handleDisconnectedCopies env).updateStats env).Coherent :=
    coherent.handleDisconnectedCopies
  have cleaned : (((c.handleDisconnectedCopies env).updateStats env).deleteInvalidChunkParts
      busyServer).Coherent :=
    Coherent.map checked (ChunkPart.keeps_delete.ite _)
  unfold Chunk.doChunkJobs
  dsimp only
  split
  · exact checked
  split
  · exact checked
  split
  · exact cleaned
  split
  · exact cleaned.deleteAllChunkParts
  split
  · exact cleaned
  cases choice with
  | replicate => exact cleaned
  | remove candidate => exact cleaned.removeUnneededChunkPart
  | nothing => exact cleaned

end Coherent

end Chunk

/-! ## The registry -/

namespace Registry

/-- Every chunk of the registry has the property. -/
def Each (P : Chunk → Prop) (r : Registry) : Prop := ∀ c, some c ∈ r.slots → P c

instance (P : Chunk → Prop) [DecidablePred P] (r : Registry) : Decidable (r.Each P) :=
  decidable_of_iff (∀ slot ∈ r.slots, ∀ c ∈ slot, P c)
    ⟨fun all c member => all _ member c rfl, fun each _ member c found => each c (found ▸ member)⟩

namespace Each

variable {P : Chunk → Prop} {r : Registry}

/-- What holds of each chunk holds of the one that is found. -/
theorem chunk? (h : r.Each P) {ptr : ChunkPtr} {c : Chunk} (found : r.chunk? ptr = some c) : P c :=
  h c (mem_of_getElem? (Option.join_eq_some_iff.mp found))

/-- The chunk behind a pointer is changed. -/
theorem modify_of (h : r.Each P) (ptr : ChunkPtr) {f : Chunk → Chunk}
    (changed : ∀ c, r.chunk? ptr = some c → P (f c)) : (r.modify ptr f).Each P := by
  intro c mem
  rcases mem_or_eq_of_mem_modify mem with old | ⟨slot, found, equal⟩
  · exact h c old
  · obtain ⟨old, rfl, rfl⟩ := Option.map_eq_some_iff.mp equal.symm
    exact changed old (Option.join_eq_some_iff.mpr found)

theorem modify (h : r.Each P) (ptr : ChunkPtr) {f : Chunk → Chunk}
    (keeps : ∀ c, P c → P (f c)) : (r.modify ptr f).Each P :=
  h.modify_of ptr fun c found => keeps c (h.chunk? found)

/-- A new chunk has to have the property, too. -/
theorem new (h : r.Each P) (id : ChunkId) (version : UInt32) (fresh : P (Chunk.new id version)) :
    (r.new id version).2.Each P := by
  intro c mem
  rcases mem_append.mp mem with old | new
  · exact h c old
  · rw [Option.some.inj (mem_singleton.mp new)]
    exact fresh

theorem delete (h : r.Each P) (ptr : ChunkPtr) : (r.delete ptr).Each P := by
  have emptied : ∀ c, some c ∈ r.slots.set ptr none → P c := by
    intro c mem
    rcases mem_or_eq_of_mem_set mem with old | gone
    · exact h c old
    · exact nomatch gone
  unfold Registry.delete
  dsimp only
  split <;> exact emptied

end Each

/-- The chunks of the registry are coherent. -/
def Coherent (r : Registry) : Prop := r.Each Chunk.Coherent

variable {r : Registry}

namespace Coherent

variable {goal : GoalId} {lockid random version versionWithTodelFlag : UInt32} {csid : Csid}
  {type : ChunkPartType} {quotaExceeded denyTruncatingParityParts locks : Bool}
  {placement : Placement} {plan : ChunkMutationPlan} {planned : List PlannedPart}
  {operation inPlace copy : ChunkOperation} {original : ChunkPtr}
  {id newId : ChunkId} (coherent : r.Coherent)
include coherent

variable {f : Chunk → Chunk}

theorem modify (ptr : ChunkPtr)
    (keeps : ∀ c, c.Coherent → (f c).Coherent) : (r.modify ptr f).Coherent :=
  Each.modify coherent ptr keeps

/-- A search only drops copies on lost servers. -/
theorem find (id : ChunkId) : (r.find id).2.Coherent := by
  unfold Registry.find
  split
  · exact coherent
  · split
    · exact Each.modify (r := r.remember _ _) coherent _
        fun _ => Chunk.Coherent.handleDisconnectedCopies
    · exact coherent

theorem lookup (id : ChunkId) : (r.lookup id).2.Coherent :=
  coherent.find id

theorem new (id : ChunkId) (version : UInt32) : (r.new id version).2.Coherent :=
  Each.new coherent id version (coherent_new id version)

/-- A change of one chunk, where there is one of this number. -/
theorem onChunk (id : ChunkId)
    (keeps : ∀ c, c.Coherent → (f c).Coherent) : (r.onChunk id f).Coherent := by
  unfold Registry.onChunk
  dsimp only
  cases (r.find id).1 with
  | none => exact coherent.find id
  | some ptr => exact (coherent.find id).modify ptr keeps

theorem onChunkStatus (id : ChunkId) {f : Chunk → Chunk × Status}
    (keeps : ∀ c, c.Coherent → (f c).1.Coherent) : (r.onChunkStatus id f).2.Coherent := by
  unfold Registry.onChunkStatus
  dsimp only
  split
  · exact coherent.find id
  · exact (coherent.find id).modify _ keeps

/-! ### Plans -/

/-- A plan for a file changes nothing but the next chunk number. -/
theorem planFileChange {c : Chunk} :
    (r.planFileChange c quotaExceeded inPlace copy plan).2.Coherent := by
  unfold Registry.planFileChange
  split
  · split <;> exact coherent
  · split
    · exact coherent
    · split <;> exact coherent

theorem planCreate : (r.planCreate quotaExceeded placement plan).2.Coherent := by
  unfold Registry.planCreate
  split
  · exact coherent
  · split
    · exact coherent
    · split <;> exact coherent

theorem planChange : (r.planChange lockid quotaExceeded plan).2.Coherent := by
  have found := coherent.lookup plan.chunkId
  unfold Registry.planChange
  dsimp only
  split
  · exact found
  split
  · exact found
  · exact found
  · split
    · exact found
    · split
      · exact found
      · exact found.planFileChange

theorem planModify : (r.planModify id lockid goal quotaExceeded placement random).2.Coherent := by
  unfold Registry.planModify
  dsimp only
  split
  · split <;> exact coherent.planCreate
  · split <;> exact coherent.planChange

theorem planTruncate :
    (r.planTruncate id lockid goal denyTruncatingParityParts quotaExceeded).2.Coherent := by
  have found := coherent.lookup id
  unfold Registry.planTruncate
  dsimp only
  split
  · exact found
  split
  · exact found
  split
  · exact found
  · split
    · exact found
    · exact found.planFileChange

theorem loadedOrNew (id : ChunkId) : (r.loadedOrNew id).2.Coherent := by
  unfold Registry.loadedOrNew
  dsimp only
  split
  · exact coherent.find id
  · exact (coherent.find id).new id 1

theorem createOperation : (r.createOperation id goal planned).2.Coherent :=
  (coherent.loadedOrNew id).modify _ fun _ coherentC => coherentC.createOperation

/-- A chunk that is duplicated gets the parts of a copy. -/
theorem copyOperation :
    (r.copyOperation operation locks original goal newId planned).2.Coherent := by
  have marked := (coherent.loadedOrNew newId).modify (r.loadedOrNew newId).1
    (f := fun c => { c with interrupted := false, operation := operation })
    fun _ coherentC => coherentC
  have taken := marked.modify original
    (f := fun c => (c.deleteFile (r.loadedOrNew newId).2.env goal).1)
    fun _ coherentC => coherentC.deleteFile
  have given := taken.modify (r.loadedOrNew newId).1
    (f := addFirstFile (r.loadedOrNew newId).2.env goal)
    fun _ coherentC => coherentC.addFirstFile
  exact given.modify _ fun c coherentC => coherentC.copyParts

theorem mutationPlanCurrent : (r.mutationPlanCurrent plan).2.Coherent := by
  unfold Registry.mutationPlanCurrent
  extract_lets createsTarget inUse
  split
  · exact coherent
  have looked : (if createsTarget then r.lookup plan.targetChunkId else (none, r)).2.Coherent := by
    split
    · exact coherent.lookup _
    · exact coherent
  generalize (if createsTarget then r.lookup plan.targetChunkId else (none, r)) = found
    at looked ⊢
  dsimp only at looked ⊢
  split
  · exact looked
  · split
    · exact looked
    · exact looked.lookup plan.chunkId

theorem runOperation : (r.runOperation plan).2.Coherent := by
  unfold Registry.runOperation
  extract_lets inPlaceRun copyRun
  have inPlace : ∀ f : Chunk → Chunk, (∀ c, c.Coherent → (f c).Coherent) →
      (inPlaceRun f).2.Coherent := by
    intro f keeps
    unfold inPlaceRun
    dsimp only
    cases (r.find plan.chunkId).1 with
    | none => exact coherent.find plan.chunkId
    | some ptr => exact (coherent.find plan.chunkId).modify ptr keeps
  have copied : ∀ run : Registry → ChunkPtr → ChunkPtr × Registry,
      (∀ r original, Coherent r → (run r original).2.Coherent) → (copyRun run).2.Coherent := by
    intro run keeps
    unfold copyRun
    dsimp only
    split
    · exact coherent.find plan.chunkId
    · exact keeps _ _ (coherent.find plan.chunkId)
  clear_value inPlaceRun copyRun
  split
  · exact coherent.createOperation
  · exact inPlace _ fun c _ => coherent_moveVersion r.env .setVersion true plan.parts c
  · exact copied _ fun _ _ coherentR => coherentR.copyOperation
  · exact inPlace _ fun c _ => coherent_moveVersion r.env .truncate false plan.parts c
  · exact copied _ fun _ _ coherentR => coherentR.copyOperation
  · exact inPlace _ fun c coherentC => coherentC.lockOperation
  · exact inPlace _ fun c coherentC => coherentC.lockOperation

theorem runMutationPlan : (r.runMutationPlan plan).Coherent := by
  unfold Registry.runMutationPlan
  dsimp only
  cases (r.runOperation plan).1 with
  | none => exact coherent.runOperation
  | some target => exact (coherent.runOperation).modify target fun _ coherentC => coherentC

omit coherent in
theorem runIfOk {planned : ChunkMutationPlan × Registry} (coherent : planned.2.Coherent) :
    (Registry.runIfOk planned).2.Coherent := by
  unfold Registry.runIfOk
  split
  · exact coherent
  · exact coherent.runMutationPlan

theorem applyMutationPlan : (r.applyMutationPlan plan).2.Coherent := by
  unfold Registry.applyMutationPlan
  dsimp only
  split
  · exact coherent.mutationPlanCurrent.runMutationPlan
  · exact coherent.mutationPlanCurrent

/-! ### Reports and repair -/

theorem foundOrNew (id : ChunkId) (version : UInt32) (keeps : ∀ c, c.Coherent → (f c).Coherent) :
    (r.foundOrNew id version f).2.Coherent := by
  unfold Registry.foundOrNew
  dsimp only
  split
  · exact coherent.find id
  refine modify (new ?_ id version) _ keeps
  split
  · unfold Registry.setNextChunkId
    split <;> exact coherent.find id
  · exact coherent.find id

theorem serverHasChunk : (r.serverHasChunk csid id versionWithTodelFlag type).Coherent :=
  modify (foundOrNew coherent id (getChunkVersion versionWithTodelFlag)
      (f := fun c => { c with lockedto := r.env.time + unusedDeleteTimeout, lockid := 0 })
      fun _ coherentC => coherentC) _
    fun _ coherentC => coherentC.serverHasChunk

theorem damaged : (r.damaged csid id type).Coherent :=
  (coherent.foundOrNew id 0 fun _ coherentC => coherentC).modify _
    fun _ coherentC => coherentC.damaged

theorem deleteUnused (ptr : ChunkPtr) : (r.deleteUnused ptr).Coherent := by
  have dropped := coherent.modify ptr (f := handleDisconnectedCopies r.env)
    fun _ coherentC => coherentC.handleDisconnectedCopies
  unfold Registry.deleteUnused
  dsimp only
  split
  · exact Each.delete dropped ptr
  · exact dropped

theorem report {f : Registry → Registry} (keeps : (f r).Coherent) : (r.report csid f).Coherent := by
  unfold Registry.report
  split
  · exact keeps
  · exact coherent

end Coherent

/-- A repair does not take a chunk away from valid parts: where it would set another
version, the chunk has none. -/
def KeepsValidParts (r : Registry) : Event → Prop
  | .repair _ id correctOnly =>
      match (r.planRepair id correctOnly).1 with
      | .setVersion _ => ((r.lookup id).1.any fun c => c.parts.any (·.isValid)) = false
      | _ => True
  | _ => True

instance (r : Registry) (event : Event) : Decidable (r.KeepsValidParts event) := by
  unfold KeepsValidParts
  cases event <;> dsimp only <;> try infer_instance
  split <;> infer_instance

/-- Finding a chunk does not change what is found. -/
theorem lookup_find (r : Registry) (id : ChunkId) :
    ((r.find id).2.lookup id).1 = (r.lookup id).1 := by
  unfold lookup
  rw [find_find]

/-- A plan that sets a version has looked at the chunk. -/
theorem planRepair_snd_of_setVersion {id : ChunkId} {correctOnly : Bool} {version : UInt32}
    (planned : (r.planRepair id correctOnly).1 = .setVersion version) :
    (r.planRepair id correctOnly).2 = (r.find id).2 := by
  unfold planRepair at planned ⊢
  split at planned
  · cases planned
  next ne =>
    rw [if_neg ne]
    rfl

/-- A repair sets the version only where no part is valid. -/
theorem Coherent.applyRepairPlan (coherent : r.Coherent) (goal : GoalId) (id : ChunkId)
    {plan : ChunkRepairPlan} (nothingValid : ∀ version, plan = .setVersion version →
      ∀ c, (r.lookup id).1 = some c → c.parts.any (·.isValid) = false) :
    (r.applyRepairPlan goal id plan).2.Coherent := by
  unfold Registry.applyRepairPlan
  split
  · exact coherent
  · exact coherent.onChunkStatus id fun _ coherentC => coherentC.deleteFile
  next version =>
    dsimp only
    split
    · exact coherent.find id
    next ptr found =>
      split
      · exact coherent.find id
      · refine Each.modify_of (coherent.find id) ptr ?_
        intro c chunk
        refine coherent_setRepaired (nothingValid version rfl c ?_)
        simp [Registry.lookup, found, chunk]

/-- The chunk that a repair has looked at is the one that it changes. -/
theorem Coherent.repair (coherent : r.Coherent) (goal : GoalId) (id : ChunkId)
    (correctOnly : Bool) (keeps : r.KeepsValidParts (.repair goal id correctOnly)) :
    (r.repair goal id correctOnly).2.Coherent := by
  have looked : (r.planRepair id correctOnly).2.Coherent := by
    unfold Registry.planRepair
    split
    · exact coherent
    · exact coherent.lookup id
  unfold Registry.repair
  dsimp only
  split
  · exact looked
  · refine looked.applyRepairPlan goal id ?_
    intro version planned c found
    rw [planRepair_snd_of_setVersion planned, lookup_find] at found
    simpa [KeepsValidParts, planned, found] using keeps

/-- A step keeps the registry coherent, unless a repair leaves valid parts behind. -/
theorem Coherent.step (coherent : r.Coherent) (event : Event) (keeps : r.KeepsValidParts event) :
    (r.step event).Coherent := by
  cases event with
  | multiModify => exact runIfOk coherent.planModify
  | multiTruncate => exact runIfOk coherent.planTruncate
  | applyMutationPlan => exact coherent.applyMutationPlan
  | addFile id => exact coherent.onChunkStatus id fun _ coherentC => coherentC.addFile
  | deleteFile id => exact coherent.onChunkStatus id fun _ coherentC => coherentC.deleteFile
  | changeFile id prevGoal newGoal =>
    show (r.changeFile id prevGoal newGoal).2.Coherent
    unfold Registry.changeFile
    split
    · exact coherent
    · exact coherent.onChunkStatus id fun _ coherentC => coherentC.changeFileGoal
  | unlock id => exact coherent.onChunkStatus id fun _ coherentC => coherentC
  | repair goal id correctOnly => exact coherent.repair goal id correctOnly keeps
  | connect csid server =>
    show (r.connect csid server).Coherent
    unfold Registry.connect
    split <;> exact coherent
  | serverHasChunk => exact coherent.report coherent.serverHasChunk
  | damaged => exact coherent.report coherent.damaged
  | lost _ id => exact coherent.report (coherent.onChunk id fun _ coherentC => coherentC.lost)
  | deleteStatus _ id =>
    exact coherent.report (coherent.onChunk id fun _ coherentC => coherentC.deleteStatus)
  | replicateStatus _ id _ _ ok =>
    refine coherent.report (coherent.onChunk id fun c coherentC => ?_)
    cases ok with
    | true => exact coherentC.replicateStatus
    | false => exact coherentC
  | operationStatus _ id =>
    exact coherent.report (coherent.onChunk id fun _ coherentC => coherentC.operationStatus)
  | writeEndStatus _ id =>
    exact coherent.report (coherent.onChunk id fun _ coherentC => coherentC.writeEndStatus)
  | zombieServers ptr =>
    exact coherent.modify ptr fun _ coherentC => coherentC.handleDisconnectedCopies
  | chunkJobs ptr => exact coherent.modify ptr fun _ coherentC => coherentC.doChunkJobs
  | deleteUnused ptr => exact coherent.deleteUnused ptr
  | disconnect | kill | passTime | configure => exact coherent

/-- From a registry as it is loaded, where no part is known, every run in which no repair
leaves valid parts behind keeps the valid parts at the versions of their chunks. -/
theorem valid_parts_have_chunk_version {events : List Event}
    (loaded : r.Each fun c => c.parts = [])
    (keeps : StepSystem.Along step KeepsValidParts r events) :
    (StepSystem.run step r events).Each fun c =>
      ∀ part ∈ c.parts, part.isValid = true → part.version = c.version := by
  have initially : r.Coherent := by
    intro c member part partMember
    simp [loaded c member] at partMember
  exact StepSystem.invariant_run (P := Coherent)
    (fun s event coherent keepsEvent => coherent.step event keepsEvent) initially keeps

/-! ### Two repairs -/

/-- A registry with one chunk of version 1 that one file refers to. -/
def withOneChunk : Registry :=
  let env : Environment :=
    { server := fun _ => none
      time := 1000
      mergedGoal := fun _ => [⟨SliceType.kStandard, [1]⟩]
      redundancyLevel := 0
      useChunkserverSideChunkLock := false }
  { env := env
    slots := [some ((Chunk.new 7 1).addFile env 1).1]
    lastchunkid := 0
    lastchunkptr := none
    nextChunkId := 8 }

/-- Servers connect and report their versions of the chunk, and the file is repaired. -/
def repairAfterReports (versions : List (Csid × UInt32)) : List Event :=
  versions.flatMap (fun (csid, version) =>
    [.connect csid ⟨csid.toUInt32, 9422, 0x050800, false⟩,
      .serverHasChunk csid 7 version ChunkPartType.standard]) ++
  [.repair 1 7 false]

/-- Where only a newer copy is left, the chunk takes its version. -/
theorem valid_parts_have_chunk_version_newer :
    (withOneChunk.Each fun c => c.parts = []) ∧
    StepSystem.Along step KeepsValidParts withOneChunk (repairAfterReports [(2, 5)]) ∧
    (StepSystem.run step withOneChunk (repairAfterReports [(2, 5)])).Each fun c =>
      ∀ part ∈ c.parts, part.isValid = true → part.version = c.version :=
  ⟨by decide, by decide, valid_parts_have_chunk_version (by decide) (by decide)⟩

/-- Where a copy of the chunk's own version is valid, it stays valid beside the newer one,
and the chunk has the newer version. -/
theorem repair_leaves_stale_part :
    (withOneChunk.Each fun c => c.parts = []) ∧
    ¬ (StepSystem.run step withOneChunk (repairAfterReports [(1, 1), (2, 5)])).Each fun c =>
      ∀ part ∈ c.parts, part.isValid = true → part.version = c.version := by
  decide

end Registry

end LeilFS.Chunks
