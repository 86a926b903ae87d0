/-
Module: LeilFS.Chunks.Events
Purpose: What happens to the registry of chunks: reports of chunkservers, repair, the
  worker that cleans up, and the operations of clients, as the steps of one system.
Trusted boundary: none
-/
import LeilFS.Chunks.Registry

namespace LeilFS.Chunks

/-! ## Reports of chunkservers -/

/-- What a second report of a known part makes of it [SPEC chunks.cc:2407-2444]. -/
def ChunkPart.reported (part : ChunkPart) (chunkVersion version : UInt32) (todel : Bool) :
    ChunkPart :=
  match part.state with
  | .del => part.invalidate
  | .invalid => part
  | _ =>
      let part := { part with version := version }
      if version ≠ chunkVersion then part.markAsHavingWrongVersion else part.setTodel todel

namespace Chunk

/-- The first part of the type on the server is replaced. -/
def replacePart (csid : Csid) (type : ChunkPartType) (part : ChunkPart) (c : Chunk) : Chunk :=
  { c with parts := c.parts.modify (c.parts.findIdx (·.isOn csid type)) fun _ => part }

/-- [SPEC chunks.cc:2406-2449] A report changes the statistics of the chunk when it
changes the state of the part. -/
def serverHasChunk (env : Environment) (csid : Csid) (version : UInt32) (todel : Bool)
    (type : ChunkPartType) (c : Chunk) : Chunk :=
  match c.parts.find? (·.isOn csid type) with
  | some part =>
      let reported := part.reported c.version version todel
      let c := c.replacePart csid type reported
      if reported.state = part.state then c else c.updateStats env
  | none =>
      let state : PartState :=
        if version = c.version then if todel then .tdvalid else .valid else .invalid
      updateStats env
        { c with
          parts := c.parts ++ [{ csid := csid, state := state, version := version, type := type }] }

/-- [SPEC chunks.cc:2467-2478] -/
def damaged (env : Environment) (csid : Csid) (type : ChunkPartType) (c : Chunk) : Chunk :=
  let c : Chunk :=
    match c.parts.find? (·.isOn csid type) with
    | some part => c.replacePart csid type part.invalidate
    | none =>
        { c with
          parts := c.parts ++
            [{ csid := csid, state := .invalid, version := 0, type := ChunkPartType.standard }] }
  { c.updateStats env with needVersionIncrease := true }

/-- The parts of the type on the server are forgotten. -/
def dropParts (env : Environment) (csid : Csid) (type : ChunkPartType) (c : Chunk) : Chunk :=
  updateStats env { c with parts := c.parts.filter fun part => !part.isOn csid type }

/-- [SPEC chunks.cc:2480-2494] -/
def lost (env : Environment) (csid : Csid) (type : ChunkPartType) (c : Chunk) : Chunk :=
  if c.parts.any (·.isOn csid type) then
    { c.dropParts env csid type with needVersionIncrease := true }
  else c

/-- [SPEC chunks.cc:2571-2590] -/
def deleteStatus (env : Environment) (csid : Csid) (type : ChunkPartType) (c : Chunk) : Chunk :=
  if c.parts.any (·.isOn csid type) then c.dropParts env csid type else c

/-- [SPEC chunks.cc:2592-2615] -/
def replicateStatus (env : Environment) (csid : Csid) (version : UInt32) (type : ChunkPartType)
    (c : Chunk) : Chunk :=
  match c.parts.find? (·.isOn csid type) with
  | some part =>
      if part.state = .valid ∧ version ≠ c.version then
        updateStats env
          (c.replacePart csid type { part with version := version, state := .invalid })
      else c
  | none =>
      let state : PartState :=
        if c.isLocked env ∨ version ≠ c.version then .invalid else .valid
      updateStats env
        { c with
          parts := c.parts ++ [{ csid := csid, state := state, version := version, type := type }] }

end Chunk

/-- [SPEC chunk_version_with_todel_flag.h] The version and the flag of a disk that is
to be emptied. -/
def getChunkVersion (versionWithTodelFlag : UInt32) : UInt32 :=
  versionWithTodelFlag &&& 0x7FFFFFFF

def getTodelFlag (versionWithTodelFlag : UInt32) : Bool :=
  versionWithTodelFlag &&& 0x80000000 ≠ 0

/-- `UNUSED_DELETE_TIMEOUT` -/
def unusedDeleteTimeout : UInt32 := 86400 * 7

namespace Registry

/-- [SPEC id_generator_incremental.h:66-75] The next chunk number never goes back. -/
def setNextChunkId (r : Registry) (next : ChunkId) : Registry :=
  if r.nextChunkId ≤ next then { r with nextChunkId := next } else r

/-- A chunk that the registry does not know gets a record, so that it can be deleted
[SPEC chunks.cc:2392-2404, 2454-2466]. -/
def foundOrNew (r : Registry) (id : ChunkId) (version : UInt32) (mark : Chunk → Chunk) :
    ChunkPtr × Registry :=
  let (ptr, r) := r.find id
  match ptr with
  | some ptr => (ptr, r)
  | none =>
      let r := if r.nextChunkId ≤ id then r.setNextChunkId (id + 1) else r
      let (ptr, r) := r.new id version
      (ptr, r.modify ptr mark)

/-- [SPEC chunks.cc:2387-2449] -/
def serverHasChunk (r : Registry) (csid : Csid) (id : ChunkId) (versionWithTodelFlag : UInt32)
    (type : ChunkPartType) : Registry :=
  let version := getChunkVersion versionWithTodelFlag
  let (ptr, r) := r.foundOrNew id version fun c =>
    { c with lockedto := r.env.time + unusedDeleteTimeout, lockid := 0 }
  r.modify ptr (Chunk.serverHasChunk r.env csid version (getTodelFlag versionWithTodelFlag) type)

/-- [SPEC chunks.cc:2451-2478] -/
def damaged (r : Registry) (csid : Csid) (id : ChunkId) (type : ChunkPartType) : Registry :=
  let (ptr, r) := r.foundOrNew id 0 fun c => c
  r.modify ptr (Chunk.damaged r.env csid type)

/-- [SPEC chunks.cc:2496-2512] A server is gone, and the last chunk that was found is
forgotten. -/
def disconnect (r : Registry) (csid : Csid) : Registry :=
  { r with
    env := { r.env with server := Function.update r.env.server csid none }
    lastchunkid := 0
    lastchunkptr := none }

/-- A server that was not connected. -/
def connect (r : Registry) (csid : Csid) (server : Connection) : Registry :=
  if (r.env.server csid).isSome then r
  else { r with env := { r.env with server := Function.update r.env.server csid (some server) } }

/-- The master gives a server up; its connection is closed later. -/
def kill (r : Registry) (csid : Csid) : Registry :=
  { r with
    env :=
      { r.env with
        server := Function.update r.env.server csid
          ((r.env.server csid).map fun server => { server with killed := true }) } }

end Registry

/-! ## Repair -/

/-- [SPEC chunks.h:272-283] -/
inductive ChunkRepairPlan where
  | unchanged
  | eraseReference
  | setVersion (version : UInt32)
deriving Repr, DecidableEq

namespace Chunk

/-- The versions of the parts that are not being deleted, the highest first. -/
def versions (c : Chunk) : List UInt32 :=
  ((c.parts.filter (·.state ≠ .del)).map (·.version)).dedup.insertionSort (· ≥ ·)

/-- Whether the parts of a version make the whole chunk. -/
def isRecoverable (c : Chunk) (version : UInt32) : Bool :=
  0 < Goal.getFullCopiesCount (Goal.available
    ((c.parts.filter fun part => part.state ≠ .del ∧ part.version = version).map (·.type)))

/-- The highest version that can be recovered, or 0 [SPEC chunks.cc:2046-2068]. -/
def bestVersion (c : Chunk) : UInt32 :=
  (c.versions.find? c.isRecoverable).getD 0

/-- [SPEC chunks.cc:2044-2077] -/
def planRepair (env : Environment) (correctOnly : Bool) (c : Chunk) : ChunkRepairPlan :=
  if c.isLocked env then .unchanged
  else if c.bestVersion = c.version then .unchanged
  else if c.bestVersion = 0 then if correctOnly then .unchanged else .eraseReference
  else .setVersion c.bestVersion

/-- [SPEC chunks.cc:2088-2096] -/
def setRepaired (env : Environment) (version : UInt32) (c : Chunk) : Chunk :=
  updateStats env
    { c with
      version := version
      parts := c.parts.map fun part =>
        if part.state = .invalid ∧ part.version = version then { part with state := .valid }
        else part
      needVersionIncrease := true }

end Chunk

namespace Registry

/-- [SPEC chunks.cc:2033-2077] -/
def planRepair (r : Registry) (id : ChunkId) (correctOnly : Bool) : ChunkRepairPlan × Registry :=
  if id = 0 then (.unchanged, r)
  else
    let (found, r) := r.lookup id
    (found.elim (if correctOnly then .unchanged else .eraseReference)
      (Chunk.planRepair r.env correctOnly), r)

/-- [SPEC chunks.cc:2079-2098] -/
def applyRepairPlan (r : Registry) (goal : GoalId) (id : ChunkId) (plan : ChunkRepairPlan) :
    Bool × Registry :=
  match plan with
  | .unchanged => (true, r)
  | .eraseReference =>
      let (status, r) := r.onChunkStatus id (Chunk.deleteFile r.env goal)
      (status = .ok ∨ status = .noChunk, r)
  | .setVersion version =>
      let (ptr, r) := r.find id
      match ptr with
      | none => (false, r)
      | some ptr =>
          if version = 0 then (false, r)
          else (true, r.modify ptr (Chunk.setRepaired r.env version))

/-- [SPEC chunks.cc:2101-2108] Whether something was repaired, and the version that a
chunk got; the version 0 tells the file to drop the chunk. -/
def repair (r : Registry) (goal : GoalId) (id : ChunkId) (correctOnly : Bool) :
    (Bool × UInt32) × Registry :=
  let (plan, r) := r.planRepair id correctOnly
  if plan = .unchanged then ((false, 0), r)
  else
    let (applied, r) := r.applyRepairPlan goal id plan
    let version := match plan with
      | .setVersion version => version
      | _ => 0
    (if applied then (true, version) else (false, 0), r)

end Registry

/-! ## The worker -/

/-- What the worker ends with, when a chunk needs nothing urgent: a copy is ordered, a part
is deleted, or nothing is done [SPEC chunks.cc:3467-3522]. -/
inductive WorkerChoice where
  | replicate
  | remove (candidate : Nat)
  | nothing
deriving Repr, DecidableEq

namespace Chunk

/-- [SPEC chunks.cc:2991-3017] The servers that take no more deletions are left for a
later round. -/
def deleteInvalidChunkParts (busyServer : Csid → Bool) (c : Chunk) : Chunk :=
  { c with
    parts := c.parts.map fun part =>
      if !busyServer part.csid && !part.isValid then { part with state := .del } else part }

/-- [SPEC chunks.cc:3019-3041] -/
def deleteAllChunkParts (env : Environment) (busyServer : Csid → Bool) (c : Chunk) : Chunk :=
  let deleted (part : ChunkPart) : Bool := !busyServer part.csid && part.isValid && !part.isBusy
  if c.parts.any deleted then
    updateStats env
      { c with
        parts := c.parts.map fun part => if deleted part then { part with state := .del } else part
        needVersionIncrease := true }
  else c

/-- [SPEC chunks.cc:3165-3225] -/
def removeUnneededChunkPart (env : Environment) (candidate : Nat) (c : Chunk) : Chunk :=
  if c.parts[candidate]?.any (·.isValid) then
    updateStats env
      { c with
        parts := c.parts.modify candidate fun part => { part with state := .del }
        needVersionIncrease := true }
  else c

/-- [SPEC chunks.cc:3385-3523] `maintained` says whether there are servers and the
maintenance of chunks is switched on. -/
def doChunkJobs (env : Environment) (maintained : Bool) (busyServer : Csid → Bool)
    (choice : WorkerChoice) (c : Chunk) : Chunk :=
  let c := (c.handleDisconnectedCopies env).updateStats env
  if !maintained then c
  else if c.isLost && c.parts.any (!·.isValid) && 0 < c.fileCount then c
  else
    let c := c.deleteInvalidChunkParts busyServer
    if c.operation ≠ .none || c.isLocked env || c.parts.any (·.isBusy) then c
    else if c.fileCount = 0 then c.deleteAllChunkParts env busyServer
    else if c.isLost then c
    else
      match choice with
      | .replicate => { c with needVersionIncrease := true }
      | .remove candidate => c.removeUnneededChunkPart env candidate
      | .nothing => c

end Chunk

namespace Registry

/-- [SPEC chunks.cc:1017-1027] -/
def delete (r : Registry) (ptr : ChunkPtr) : Registry :=
  let r := { r with slots := r.slots.set ptr none }
  if r.lastchunkptr = some ptr then { r with lastchunkid := 0, lastchunkptr := none } else r

/-- [SPEC chunks.cc:3525-3556] -/
def deleteUnused (r : Registry) (ptr : ChunkPtr) : Registry :=
  let r := r.modify ptr (Chunk.handleDisconnectedCopies r.env)
  if (r.chunk? ptr).any fun c => c.fileCount = 0 ∧ c.parts = [] then r.delete ptr else r

end Registry

/-! ## Steps -/

/-- What can happen to the registry.  What a step may choose is part of its event. -/
inductive Event where
  | multiModify (id : ChunkId) (lockid : UInt32) (goal : GoalId) (quotaExceeded : Bool)
      (placement : Placement) (random : UInt32)
  | multiTruncate (id : ChunkId) (lockid : UInt32) (goal : GoalId)
      (denyTruncatingParityParts quotaExceeded : Bool)
  | applyMutationPlan (plan : ChunkMutationPlan)
  | addFile (id : ChunkId) (goal : GoalId)
  | deleteFile (id : ChunkId) (goal : GoalId)
  | changeFile (id : ChunkId) (prevGoal newGoal : GoalId)
  | unlock (id : ChunkId)
  | repair (goal : GoalId) (id : ChunkId) (correctOnly : Bool)
  | connect (csid : Csid) (server : Connection)
  | disconnect (csid : Csid)
  | kill (csid : Csid)
  | serverHasChunk (csid : Csid) (id : ChunkId) (versionWithTodelFlag : UInt32)
      (type : ChunkPartType)
  | damaged (csid : Csid) (id : ChunkId) (type : ChunkPartType)
  | lost (csid : Csid) (id : ChunkId) (type : ChunkPartType)
  | deleteStatus (csid : Csid) (id : ChunkId) (type : ChunkPartType)
  | replicateStatus (csid : Csid) (id : ChunkId) (version : UInt32) (type : ChunkPartType)
      (ok : Bool)
  | operationStatus (csid : Csid) (id : ChunkId) (type : ChunkPartType) (ok : Bool)
  | writeEndStatus (csid : Csid) (id : ChunkId) (type : ChunkPartType) (ok : Bool)
  | zombieServers (ptr : ChunkPtr)
  | chunkJobs (ptr : ChunkPtr) (maintained : Bool) (busyServer : Csid → Bool)
      (choice : WorkerChoice)
  | deleteUnused (ptr : ChunkPtr)
  | passTime (time : UInt32)
  | configure (mergedGoal : List GoalId → Goal) (redundancyLevel : Int)
      (useChunkserverSideChunkLock : Bool)

namespace Registry

/-- A report counts when its server is connected. -/
def report (r : Registry) (csid : Csid) (f : Registry → Registry) : Registry :=
  if (r.env.server csid).isSome then f r else r

/-- One step of the registry. -/
def step (r : Registry) : Event → Registry
  | .multiModify id lockid goal quotaExceeded placement random =>
      (r.multiModify id lockid goal quotaExceeded placement random).2
  | .multiTruncate id lockid goal denyTruncatingParityParts quotaExceeded =>
      (r.multiTruncate id lockid goal denyTruncatingParityParts quotaExceeded).2
  | .applyMutationPlan plan => (r.applyMutationPlan plan).2
  | .addFile id goal => (r.addFile id goal).2
  | .deleteFile id goal => (r.deleteFile id goal).2
  | .changeFile id prevGoal newGoal => (r.changeFile id prevGoal newGoal).2
  | .unlock id => (r.unlock id).2
  | .repair goal id correctOnly => (r.repair goal id correctOnly).2
  | .connect csid server => r.connect csid server
  | .disconnect csid => r.disconnect csid
  | .kill csid => r.kill csid
  | .serverHasChunk csid id versionWithTodelFlag type =>
      r.report csid fun r => r.serverHasChunk csid id versionWithTodelFlag type
  | .damaged csid id type => r.report csid fun r => r.damaged csid id type
  | .lost csid id type => r.report csid fun r => r.onChunk id (Chunk.lost r.env csid type)
  | .deleteStatus csid id type =>
      r.report csid fun r => r.onChunk id (Chunk.deleteStatus r.env csid type)
  | .replicateStatus csid id version type ok =>
      r.report csid fun r =>
        r.onChunk id (if ok then Chunk.replicateStatus r.env csid version type else fun c => c)
  | .operationStatus csid id type ok =>
      r.report csid fun r => r.onChunk id (Chunk.operationStatus r.env csid type ok)
  | .writeEndStatus csid id type ok =>
      r.report csid fun r => r.onChunk id (Chunk.writeEndStatus r.env csid type ok)
  | .zombieServers ptr => r.modify ptr (Chunk.handleDisconnectedCopies r.env)
  | .chunkJobs ptr maintained busyServer choice =>
      r.modify ptr (Chunk.doChunkJobs r.env maintained busyServer choice)
  | .deleteUnused ptr => r.deleteUnused ptr
  | .passTime time => { r with env := { r.env with time := max r.env.time time } }
  | .configure mergedGoal redundancyLevel useChunkserverSideChunkLock =>
      { r with
        env :=
          { r.env with
            mergedGoal := mergedGoal
            redundancyLevel := redundancyLevel
            useChunkserverSideChunkLock := useChunkserverSideChunkLock } }

end Registry

end LeilFS.Chunks
