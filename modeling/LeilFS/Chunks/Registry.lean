/-
Module: LeilFS.Chunks.Registry
Purpose: The registry of all chunks on the master, the references of files to them, and
  the operations that create, copy, truncate and lock chunks.
Trusted boundary: none
-/
import LeilFS.Chunks.Chunk

namespace LeilFS.Chunks

/-!
The chunks stand in the buckets of a hash table, and a search goes through one bucket
in the order in which its chunks came in.  Here they stand in one list, in that order;
the place of a chunk in the list is the pointer to it, and a chunk that is deleted
leaves its place empty.  The last chunk that was found is remembered
[SPEC chunks.cc:583-600, 824-854, 993-1012].
-/

/-- A pointer to a chunk. -/
abbrev ChunkPtr := Nat

structure Registry where
  env : Environment
  slots : List (Option Chunk)
  lastchunkid : ChunkId
  lastchunkptr : Option ChunkPtr
  nextChunkId : ChunkId

namespace Registry

/-- The chunk behind a pointer. -/
def chunk? (r : Registry) (ptr : ChunkPtr) : Option Chunk :=
  r.slots[ptr]?.join

/-- The chunk behind a pointer is changed. -/
def modify (r : Registry) (ptr : ChunkPtr) (f : Chunk → Chunk) : Registry :=
  { r with slots := r.slots.modify ptr (Option.map f) }

/-- A chunk is found and remembered. -/
def remember (r : Registry) (id : ChunkId) (ptr : ChunkPtr) : Registry :=
  { r with lastchunkid := id, lastchunkptr := some ptr }

/-- [SPEC chunks.cc:998-1014] A search that is not answered from memory drops
the copies on lost servers. -/
def find (r : Registry) (id : ChunkId) : Option ChunkPtr × Registry :=
  if r.lastchunkid = id then (r.lastchunkptr, r)
  else
    match r.slots.findIdx? (·.any (·.chunkid = id)) with
    | some ptr =>
        (some ptr, (r.remember id ptr).modify ptr (Chunk.handleDisconnectedCopies r.env))
    | none => (none, r)

/-- A search that is repeated finds the same and changes nothing. -/
theorem find_find (r : Registry) (id : ChunkId) : (r.find id).2.find id = r.find id := by
  unfold find
  split
  next remembered => rfl
  next unknown =>
    split
    next ptr found => simp [remember, modify]
    next missing => rw [if_neg unknown, missing]

/-- The chunk that a search finds. -/
def lookup (r : Registry) (id : ChunkId) : Option Chunk × Registry :=
  let (ptr, r) := r.find id
  (ptr.bind r.chunk?, r)

/-- [SPEC chunks.cc:843-855] -/
def new (r : Registry) (id : ChunkId) (version : UInt32) : ChunkPtr × Registry :=
  (r.slots.length,
    { r.remember id r.slots.length with slots := r.slots ++ [some (Chunk.new id version)] })

/-- The chunk that a search finds is changed. -/
def onChunk (r : Registry) (id : ChunkId) (f : Chunk → Chunk) : Registry :=
  let (ptr, r) := r.find id
  ptr.elim r fun ptr => r.modify ptr f

/-- The chunk that a search finds is changed, and the change has a status. -/
def onChunkStatus (r : Registry) (id : ChunkId) (f : Chunk → Chunk × Status) : Status × Registry :=
  let (ptr, r) := r.find id
  match ptr with
  | none => (.noChunk, r)
  | some ptr =>
      ((r.chunk? ptr).elim .noChunk fun c => (f c).2, r.modify ptr fun c => (f c).1)

/-! ## References of files -/

/-- [SPEC chunks.cc:1069-1088] -/
def changeFile (r : Registry) (id : ChunkId) (prevGoal newGoal : GoalId) : Status × Registry :=
  if prevGoal = newGoal then (.ok, r)
  else r.onChunkStatus id (Chunk.changeFileGoal r.env prevGoal newGoal)

/-- [SPEC chunks.cc:1116-1124] -/
def deleteFile (r : Registry) (id : ChunkId) (goal : GoalId) : Status × Registry :=
  r.onChunkStatus id (Chunk.deleteFile r.env goal)

/-- A reference of a file with the goal is dropped for every chunk; what fails is only logged. -/
def deleteFiles (goal : GoalId) (ids : List ChunkId) (r : Registry) : Registry :=
  ids.foldl (fun r id => (r.deleteFile id goal).2) r

/-- [SPEC chunks.cc:1126-1134] -/
def addFile (r : Registry) (id : ChunkId) (goal : GoalId) : Status × Registry :=
  r.onChunkStatus id (Chunk.addFile r.env goal)

/-- [SPEC chunks.cc:1252-1272] -/
def unlock (r : Registry) (id : ChunkId) : Status × Registry :=
  r.onChunkStatus id fun c => ({ c with lockedto := 0 }, .ok)

end Registry

/-! ## Plans -/

/-- [SPEC chunks.h:194-231] -/
structure ChunkMutationPlan where
  status : Status
  operation : ChunkOperation
  chunkId : ChunkId
  chunkVersion : UInt32
  targetChunkId : ChunkId
  lockId : UInt32
  lockedTo : UInt32
  goal : GoalId
  parts : List PlannedPart
deriving Repr, DecidableEq

/-- `LOCKTIMEOUT` -/
def lockTimeout : UInt32 := 120

/-- Where a new chunk would be put: the servers with the types of the parts, or why there
are none. -/
structure Placement where
  servers : List (Csid × ChunkPartType)
  noSpace : Bool
deriving Repr, DecidableEq

namespace ChunkMutationPlan

/-- A plan before anything is decided. -/
def start (chunkId : ChunkId) (goal : GoalId) : ChunkMutationPlan where
  status := .ok
  operation := .none
  chunkId := chunkId
  chunkVersion := 0
  targetChunkId := 0
  lockId := 0
  lockedTo := 0
  goal := goal
  parts := []

/-- The plan ends with an error. -/
def refuse (plan : ChunkMutationPlan) (status : Status) : ChunkMutationPlan :=
  { plan with status := status }

end ChunkMutationPlan

namespace Registry

/-- A new chunk number for a plan. -/
def takeChunkId (r : Registry) : ChunkId × Registry :=
  (r.nextChunkId, { r with nextChunkId := r.nextChunkId + 1 })

/-- [SPEC chunks.cc:1604-1645] -/
def planCreate (r : Registry) (quotaExceeded : Bool) (placement : Placement)
    (plan : ChunkMutationPlan) : ChunkMutationPlan × Registry :=
  if quotaExceeded then (plan.refuse .quota, r)
  else if placement.servers = [] then
    (plan.refuse (if placement.noSpace then .nospace else .noChunkservers), r)
  else if !Goal.isSafeEnoughToWrite (r.env.mergedGoal [plan.goal])
      (Goal.available (placement.servers.map (·.2))) r.env.redundancyLevel then
    (plan.refuse .noChunkservers, r)
  else
    let (id, r) := r.takeChunkId
    ({ plan with
        operation := .create
        targetChunkId := id
        parts := placement.servers.filterMap fun (csid, type) => r.env.plannedPart csid type },
      r)

/-- [SPEC chunks.cc:1666-1694] -/
def planFileChange (r : Registry) (c : Chunk) (quotaExceeded : Bool)
    (inPlaceOperation copyOperation : ChunkOperation) (plan : ChunkMutationPlan) :
    ChunkMutationPlan × Registry :=
  if c.fileCount = 1 then
    let plan := { plan with targetChunkId := c.chunkid }
    if c.operation ≠ .none then (plan.refuse .chunkBusy, r)
    else
      ({ plan with
          operation :=
            if inPlaceOperation = .none then
              if c.lockWaitsForReplies r.env then .lock else .none
            else inPlaceOperation
          parts := c.validParts r.env }, r)
  else if c.fileCount = 0 then (plan.refuse .chunkLost, r)
  else if quotaExceeded then (plan.refuse .quota, r)
  else
    let (id, r) := r.takeChunkId
    ({ plan with
        operation := copyOperation, targetChunkId := id, parts := c.validParts r.env }, r)

/-- The lock of a client on an existing chunk [SPEC chunks.cc:1712-1733]. -/
def lockRefusal (r : Registry) (c : Chunk) (lockId : UInt32) : Option Status :=
  let restartRestoredNoLock := c.lockid = 0 ∧ c.lockedto = 0 ∧ c.isLocked r.env = false
  if lockId ≠ 0 ∧ lockId ≠ c.lockid ∧ ¬ restartRestoredNoLock then
    if c.lockid = 0 ∨ c.lockedto = 0 then some .notLocked else some .wrongLockId
  else if lockId = 0 ∧ c.isLocked r.env then some .locked
  else none

/-- [SPEC chunks.cc:1704-1746] -/
def planChange (r : Registry) (lockId : UInt32) (quotaExceeded : Bool)
    (plan : ChunkMutationPlan) : ChunkMutationPlan × Registry :=
  let (found, r) := r.lookup plan.chunkId
  match found with
  | none => (plan.refuse .noChunk, r)
  | some c =>
      let plan := { plan with chunkVersion := c.version }
      match r.lockRefusal c lockId with
      | some .locked => ({ plan with targetChunkId := plan.chunkId }.refuse .locked, r)
      | some status => (plan.refuse status, r)
      | none =>
          if !c.isWritable then (plan.refuse .chunkLost, r)
          else if !Goal.isSafeEnoughToWrite (r.env.getGoal c.goalCounters)
              (Goal.available (c.parts.map (·.type))) r.env.redundancyLevel then
            (plan.refuse .noChunkservers, r)
          else
            r.planFileChange c quotaExceeded
              (if c.needVersionIncrease then .setVersion else .none) .duplicate plan

/-- [SPEC chunks.cc:1748-1766] A client without a lock gets a new one with a
random number. -/
def planModify (r : Registry) (id : ChunkId) (lockid : UInt32) (goal : GoalId)
    (quotaExceeded : Bool) (placement : Placement) (random : UInt32) :
    ChunkMutationPlan × Registry :=
  let plan := ChunkMutationPlan.start id goal
  let (plan, r) :=
    if id = 0 then r.planCreate quotaExceeded placement plan
    else r.planChange lockid quotaExceeded plan
  if plan.status ≠ .ok then (plan, r)
  else
    ({ plan with
        lockId := if lockid ≠ 0 then lockid else 1 + random
        lockedTo := r.env.time + lockTimeout }, r)

/-- [SPEC chunks.cc:1768-1812] -/
def planTruncate (r : Registry) (id : ChunkId) (lockid : UInt32) (goal : GoalId)
    (denyTruncatingParityParts quotaExceeded : Bool) : ChunkMutationPlan × Registry :=
  let plan :=
    { ChunkMutationPlan.start id goal with
      lockId := lockid
      lockedTo := r.env.time + lockTimeout }
  let (found, r) := r.lookup id
  match found with
  | none => (plan.refuse .noChunk, r)
  | some c =>
      let plan := { plan with chunkVersion := c.version }
      if !c.isWritable then (plan.refuse .chunkLost, r)
      else if c.isLocked r.env ∧ (lockid = 0 ∨ lockid ≠ c.lockid) then
        (plan.refuse .locked, r)
      else if denyTruncatingParityParts && c.parts.any (·.type.isParityPart) then
        (plan.refuse .notPossible, r)
      else r.planFileChange c quotaExceeded .truncate .duptrunc plan

/-! ## Running a plan -/

/-- [SPEC chunks.cc:1335-1338] -/
def loadedOrNew (r : Registry) (id : ChunkId) : ChunkPtr × Registry :=
  let (ptr, r) := r.find id
  match ptr with
  | some ptr => (ptr, r)
  | none => r.new id 1

/-- A chunk that is created under its number. -/
def createOperation (r : Registry) (id : ChunkId) (goal : GoalId) (planned : List PlannedPart) :
    ChunkPtr × Registry :=
  let (target, r) := r.loadedOrNew id
  (target, r.modify target (Chunk.createOperation r.env goal planned))

/-- A file gets a chunk of its own in place of one that it shares: the reference moves, and
the parts are copied [SPEC chunks.cc:1509-1533, 1572-1596]. -/
def copyOperation (r : Registry) (operation : ChunkOperation) (locks : Bool)
    (original : ChunkPtr) (goal : GoalId) (newId : ChunkId) (planned : List PlannedPart) :
    ChunkPtr × Registry :=
  let (target, r) := r.loadedOrNew newId
  let r := r.modify target fun c => { c with interrupted := false, operation := operation }
  let r := r.modify original fun c => (c.deleteFile r.env goal).1
  let r := r.modify target (Chunk.addFirstFile r.env goal)
  let parts := (r.chunk? original).elim [] (·.parts)
  (target, r.modify target (Chunk.copyParts r.env locks parts planned))

/-- [SPEC chunks.cc:1509-1533] -/
def duplicateOperation (r : Registry) (original : ChunkPtr) (goal : GoalId) (newId : ChunkId)
    (planned : List PlannedPart) : ChunkPtr × Registry :=
  r.copyOperation .duplicate true original goal newId planned

/-- [SPEC chunks.cc:1572-1596] -/
def duplicateAndTruncateOperation (r : Registry) (original : ChunkPtr) (goal : GoalId)
    (newId : ChunkId) (planned : List PlannedPart) : ChunkPtr × Registry :=
  r.copyOperation .duptrunc false original goal newId planned

/-- [SPEC chunks.cc:1815-1874] Whether the registry still is as the plan saw it. -/
def mutationPlanCurrent (r : Registry) (plan : ChunkMutationPlan) : Bool × Registry :=
  let createsTarget := plan.targetChunkId ≠ plan.chunkId
  let inUse (c : Chunk) : Bool := c.parts ≠ [] || c.operation ≠ .none
  if plan.lockedTo < r.env.time then (false, r)
  else
    let (target, r) := if createsTarget then r.lookup plan.targetChunkId else (none, r)
    if target.any inUse then (false, r)
    else if plan.operation = .create then
      (plan.parts.any fun part => (r.env.plannedPartServer part).isSome, r)
    else
      let (found, r) := r.lookup plan.chunkId
      let current (c : Chunk) : Bool :=
        let live (part : PlannedPart) : Bool :=
          (Chunk.plannedLivePart r.env c.parts part).isSome
        if c.version ≠ plan.chunkVersion || !c.isWritable ||
            (c.isLocked r.env && c.lockid ≠ plan.lockId) ||
            (!createsTarget && c.operation ≠ .none) then false
        else if plan.operation = .lock || plan.operation = .none then
          let lockDecision := if c.lockWaitsForReplies r.env then .lock else .none
          !c.needVersionIncrease && lockDecision = plan.operation &&
            c.parts.countP (·.isValid) = plan.parts.length && plan.parts.all live
        else if (plan.operation = .setVersion || plan.operation = .truncate) &&
            !plan.parts.all live then
          0 ≤ Goal.evalRedundancyLevel
            (Goal.available ((plan.parts.filter live).map (·.type)))
        else plan.parts.isEmpty || plan.parts.any live
      (found.any current, r)

/-- The chunk that a plan works on, and what it does to it [SPEC chunks.cc:1877-1910]. -/
def runOperation (r : Registry) (plan : ChunkMutationPlan) : Option ChunkPtr × Registry :=
  let inPlace (f : Chunk → Chunk) : Option ChunkPtr × Registry :=
    let (ptr, r) := r.find plan.chunkId
    (ptr, ptr.elim r fun ptr => r.modify ptr f)
  let copy (copyOperation : Registry → ChunkPtr → ChunkPtr × Registry) :
      Option ChunkPtr × Registry :=
    let (original, r) := r.find plan.chunkId
    match original with
    | none => (none, r)
    | some original => (copyOperation r original).map some id
  match plan.operation with
  | .create => (r.createOperation plan.targetChunkId plan.goal plan.parts).map some id
  | .setVersion => inPlace (Chunk.increaseVersionOperation r.env true plan.parts)
  | .duplicate =>
      copy fun r original =>
        r.duplicateOperation original plan.goal plan.targetChunkId plan.parts
  | .truncate => inPlace (Chunk.truncateOperation r.env plan.parts)
  | .duptrunc =>
      copy fun r original =>
        r.duplicateAndTruncateOperation original plan.goal plan.targetChunkId plan.parts
  | .lock => inPlace (Chunk.lockOperation r.env true plan.parts)
  | .none => inPlace (Chunk.lockOperation r.env false plan.parts)

/-- [SPEC chunks.cc:1877-1917] The target is locked for the client. -/
def runMutationPlan (r : Registry) (plan : ChunkMutationPlan) : Registry :=
  let (target, r) := r.runOperation plan
  target.elim r fun target =>
    r.modify target fun c => { c with lockedto := plan.lockedTo, lockid := plan.lockId }

/-- [SPEC chunks.cc:1919-1923] -/
def applyMutationPlan (r : Registry) (plan : ChunkMutationPlan) : Bool × Registry :=
  let (current, r) := r.mutationPlanCurrent plan
  if current then (true, r.runMutationPlan plan) else (false, r)

/-- A plan that is made is run at once. -/
def runIfOk (planned : ChunkMutationPlan × Registry) : ChunkMutationPlan × Registry :=
  if planned.1.status ≠ .ok then planned else (planned.1, planned.2.runMutationPlan planned.1)

/-- [SPEC chunks.cc:1950-1963] The answer is the plan. -/
def multiModify (r : Registry) (id : ChunkId) (lockid : UInt32) (goal : GoalId)
    (quotaExceeded : Bool) (placement : Placement) (random : UInt32) :
    ChunkMutationPlan × Registry :=
  runIfOk (r.planModify id lockid goal quotaExceeded placement random)

/-- [SPEC chunks.cc:1982-1996] -/
def multiTruncate (r : Registry) (id : ChunkId) (lockid : UInt32) (goal : GoalId)
    (denyTruncatingParityParts quotaExceeded : Bool) : ChunkMutationPlan × Registry :=
  runIfOk (r.planTruncate id lockid goal denyTruncatingParityParts quotaExceeded)

end Registry

end LeilFS.Chunks
