/-
Module: LeilFS.Chunks.Chunk
Purpose: A chunk with its parts on the chunkservers, and what the master does to one
  chunk: version moves, answers of chunkservers, and lost servers.
Trusted boundary: none
-/
import LeilFS.Chunks.Copies
import LeilFS.Chunks.GoalCounters

namespace LeilFS.Chunks

/-! ## Parts -/

/-- The number of a chunkserver in the registry of the master. -/
abbrev Csid := UInt16

/-- [SPEC chunks.cc:121-131] -/
inductive PartState where
  | invalid | del | busy | valid | tdbusy | tdvalid
deriving Repr, DecidableEq

namespace PartState

/-- [SPEC chunks.cc:146-156] -/
def isBusy : PartState → Bool
  | busy | tdbusy => true
  | _ => false

def isValid : PartState → Bool
  | invalid | del => false
  | _ => true

def isTodel : PartState → Bool
  | tdvalid | tdbusy => true
  | _ => false

/-!
The changes of state below assert that the part is in a state that allows them
[SPEC chunks.cc:162-212].  They take a proof of it, so that no caller can fail
the assertion.
-/

def markBusy : (state : PartState) → state.isValid = true → state.isBusy = false → PartState
  | valid, _, _ => busy
  | tdvalid, _, _ => tdbusy

def unmarkBusy : (state : PartState) → state.isBusy = true → PartState
  | busy, _ => valid
  | tdbusy, _ => tdvalid

def markTodel : (state : PartState) → state.isValid = true → state.isTodel = false → PartState
  | valid, _, _ => tdvalid
  | busy, _, _ => tdbusy

def unmarkTodel : (state : PartState) → state.isTodel = true → PartState
  | tdvalid, _ => valid
  | tdbusy, _ => busy

end PartState

/-- [SPEC chunks.cc:133-144] -/
structure ChunkPart where
  csid : Csid
  state : PartState
  version : UInt32
  type : ChunkPartType
  beingWritten : Bool := false
deriving Repr, DecidableEq

namespace ChunkPart

def isBusy (part : ChunkPart) : Bool := part.state.isBusy

def isValid (part : ChunkPart) : Bool := part.state.isValid

def isTodel (part : ChunkPart) : Bool := part.state.isTodel

/-- `if (!part.is_busy()) { part.mark_busy(); }` for a valid part. -/
def makeBusy (part : ChunkPart) : ChunkPart :=
  if idle : part.state.isValid = true ∧ part.state.isBusy = false then
    { part with state := part.state.markBusy idle.1 idle.2 }
  else part

/-- `if (part.is_busy()) { part.unmark_busy(); }` -/
def makeIdle (part : ChunkPart) : ChunkPart :=
  if busy : part.state.isBusy = true then
    { part with state := part.state.unmarkBusy busy }
  else part

/-- A valid part is on a disk that is to be emptied, or is not any more. -/
def setTodel (part : ChunkPart) (todel : Bool) : ChunkPart :=
  if new : todel = true ∧ part.state.isValid = true ∧ part.state.isTodel = false then
    { part with state := part.state.markTodel new.2.1 new.2.2 }
  else if old : todel = false ∧ part.state.isTodel = true then
    { part with state := part.state.unmarkTodel old.2 }
  else part

/-- [SPEC chunks.cc:512-515] -/
def markAsHavingWrongVersion (part : ChunkPart) : ChunkPart :=
  { part with state := .invalid }

/-- [SPEC chunks.cc:517-522] -/
def invalidate (part : ChunkPart) : ChunkPart :=
  { part with state := .invalid, beingWritten := false, version := 0 }

/-- The part that a chunkserver talks about. -/
def isOn (part : ChunkPart) (csid : Csid) (type : ChunkPartType) : Bool :=
  part.csid = csid && part.type = type

end ChunkPart

/-! ## What a chunk depends on -/

/-- A connected chunkserver: its address, the version of its software, and whether the
master has given it up. -/
structure Connection where
  ip : UInt32
  port : UInt16
  version : UInt32
  killed : Bool
deriving Repr, DecidableEq

/-- `kFirstVersionWithChunkserverSideChunkLock` -/
def firstVersionWithChunkserverSideChunkLock : UInt32 := 0x050800

/-- Whether a command to the server comes with the lock it should have
[SPEC matocsserv.cc:665-684, 839-859, 909-928, 949-970]. -/
def Connection.sendsChunkLock (server : Connection) (needsLock : Bool) : Bool :=
  !server.killed && firstVersionWithChunkserverSideChunkLock ≤ server.version && needsLock

/-- The chunkservers by their numbers, the time, the definitions of the goals, and the
settings of the master. -/
structure Environment where
  server : Csid → Option Connection
  time : UInt32
  mergedGoal : List GoalId → Goal
  redundancyLevel : Int
  useChunkserverSideChunkLock : Bool

/-- [SPEC chunks.cc:395-416] -/
def Environment.getGoal (env : Environment) (counters : ChunkGoalCounters) : Goal :=
  if counters.counters = [] then []
  else env.mergedGoal (counters.counters.map (·.goal)).dedup

/-- A part as a plan names it: on a chunkserver with its address
[SPEC chunks.h:216-227]. -/
structure PlannedPart where
  csid : Csid
  ip : UInt32
  port : UInt16
  type : ChunkPartType
deriving Repr, DecidableEq

namespace Environment

/-- [SPEC chunks.cc:1341-1349] -/
def plannedPart (env : Environment) (csid : Csid) (type : ChunkPartType) : Option PlannedPart :=
  (env.server csid).map fun server => ⟨csid, server.ip, server.port, type⟩

/-- [SPEC chunks.cc:1353-1359] -/
def plannedPartServer (env : Environment) (planned : PlannedPart) : Option Connection :=
  (env.server planned.csid).filter fun server =>
    server.ip = planned.ip && server.port = planned.port

end Environment

/-! ## Chunks -/

/-- The answers of the operations on chunks. -/
inductive Status where
  | ok | delayed | enoent | eperm | einval | quota | nospace | noChunkservers | noChunk
  | chunkLost | chunkBusy | locked | notLocked | wrongLockId | notPossible | indexTooBig
deriving Repr, DecidableEq

/-- [SPEC chunks.cc:258-267] -/
inductive ChunkOperation where
  | none | create | setVersion | duplicate | truncate | duptrunc | lock
deriving Repr, DecidableEq

/-- The number of a chunk. -/
abbrev ChunkId := UInt64

/-- [SPEC chunks.cc:252-304] -/
structure Chunk where
  chunkid : ChunkId
  parts : List ChunkPart
  goalCounters : ChunkGoalCounters
  version : UInt32
  lockid : UInt32
  lockedto : UInt32
  needVersionIncrease : Bool
  interrupted : Bool
  operation : ChunkOperation
  allAvailabilityState : AvailabilityState
deriving DecidableEq

namespace Chunk

/-- [SPEC chunks.cc:313-335, 842-854] -/
def new (chunkid : ChunkId) (version : UInt32) : Chunk where
  chunkid := chunkid
  parts := []
  goalCounters := ChunkGoalCounters.empty
  version := version
  lockid := 0
  lockedto := 0
  needVersionIncrease := true
  interrupted := false
  operation := .none
  allAvailabilityState := .safe

def fileCount (c : Chunk) : Nat := c.goalCounters.fileCount

/-- The types of the valid parts. -/
def validTypes (c : Chunk) : List ChunkPartType :=
  (c.parts.filter (·.isValid)).map (·.type)

/-- [SPEC chunks.cc:425-471] -/
def updateStats (env : Environment) (c : Chunk) : Chunk :=
  { c with
    allAvailabilityState :=
      AvailabilityState.getState (env.getGoal c.goalCounters) (Goal.available c.validTypes) }

/-- [SPEC chunks.cc:481-487] -/
def isLost (c : Chunk) : Bool := c.allAvailabilityState = .lost

def isWritable (c : Chunk) : Bool := !c.isLost

/-- [SPEC chunks.cc:501-510] -/
def isLocked (env : Environment) (c : Chunk) : Bool :=
  env.time ≤ c.lockedto ||
    (c.parts.any fun part => part.beingWritten && part.isValid) && c.lockedto = 0

/-! ### References of files -/

/-- [SPEC chunks.cc:1090-1101] -/
def deleteFile (env : Environment) (goal : GoalId) (c : Chunk) : Chunk × Status :=
  match c.goalCounters.removeFile goal with
  | .ok counters => (updateStats env { c with goalCounters := counters }, .ok)
  | .error _ => (c, .chunkLost)

/-- [SPEC chunks.cc:1103-1114] -/
def addFile (env : Environment) (goal : GoalId) (c : Chunk) : Chunk × Status :=
  match c.goalCounters.addFile goal with
  | .ok counters => (updateStats env { c with goalCounters := counters }, .ok)
  | .error _ => (c, .chunkLost)

/-- [SPEC chunks.cc:1079-1087] The counters keep what was done before an
exception. -/
def changeFileGoal (env : Environment) (prevGoal newGoal : GoalId) (c : Chunk) : Chunk × Status :=
  match c.goalCounters.changeFileGoal prevGoal newGoal with
  | (counters, none) => (updateStats env { c with goalCounters := counters }, .ok)
  | (counters, some _) => ({ c with goalCounters := counters }, .chunkLost)

/-! ### Moves of the version -/

/-- [SPEC chunks.cc:1414-1420] -/
def invalidateStaleParts (env : Environment) (c : Chunk) : Chunk :=
  let stale (part : ChunkPart) : Bool := part.isValid && part.version ≠ c.version
  if c.parts.any stale then
    updateStats env
      { c with parts := c.parts.map fun part =>
          if stale part then part.markAsHavingWrongVersion else part }
  else c

/-- The part that a plan means among the parts of a chunk, with its server
[SPEC chunks.cc:1404-1410]. -/
def isPlanned (planned : PlannedPart) (part : ChunkPart) : Bool :=
  part.isOn planned.csid planned.type && part.isValid

def plannedLivePart (env : Environment) (parts : List ChunkPart) (planned : PlannedPart) :
    Option (Connection × ChunkPart) :=
  (env.plannedPartServer planned).bind fun server =>
    (parts.find? (isPlanned planned)).map fun part => (server, part)

/-- The part that a plan means is changed. -/
def modifyPlanned (planned : PlannedPart) (f : ChunkPart → ChunkPart)
    (parts : List ChunkPart) : List ChunkPart :=
  parts.modify (parts.findIdx (isPlanned planned)) f

/-- A planned part is told of the next version. -/
def movePart (env : Environment) (version : UInt32) (needsLocking : Bool)
    (parts : List ChunkPart) (planned : PlannedPart) : List ChunkPart :=
  match plannedLivePart env parts planned with
  | none => parts
  | some (server, part) =>
      let partNeedsLocking :=
        !part.beingWritten && needsLocking && env.useChunkserverSideChunkLock
      modifyPlanned planned
        (fun part =>
          { part.makeBusy with
            version := version + 1
            beingWritten := part.beingWritten || server.sendsChunkLock partNeedsLocking })
        parts

/-- The planned parts move to the next version, and the others are left behind. -/
def moveVersion (env : Environment) (operation : ChunkOperation) (needsLocking : Bool)
    (planned : List PlannedPart) (c : Chunk) : Chunk :=
  invalidateStaleParts env
    { c with
      parts := planned.foldl (movePart env c.version needsLocking) c.parts
      interrupted := false
      operation := operation
      version := c.version + 1 }

/-- [SPEC chunks.cc:1428-1453] -/
def increaseVersionOperation (env : Environment) (needsLocking : Bool)
    (planned : List PlannedPart) (c : Chunk) : Chunk :=
  c.moveVersion env .setVersion needsLocking planned

/-- [SPEC chunks.cc:1543-1560] -/
def truncateOperation (env : Environment) (planned : List PlannedPart) (c : Chunk) : Chunk :=
  c.moveVersion env .truncate false planned

/-- [SPEC chunks.cc:1648-1654] -/
def validParts (env : Environment) (c : Chunk) : List PlannedPart :=
  (c.parts.filter (·.isValid)).filterMap fun part => env.plannedPart part.csid part.type

/-- [SPEC chunks.cc:861-896] The registry in memory is the only record of the
version, and it lets every increase happen. -/
def emergencyIncreaseVersion (env : Environment) (c : Chunk) : Chunk :=
  c.increaseVersionOperation env false (c.validParts env)

/-! ### Locks on the chunkservers -/

/-- [SPEC chunks.cc:1457-1460] -/
def needsSideLock (server : Connection) (part : ChunkPart) : Bool :=
  part.isValid && !part.isBusy && !part.beingWritten &&
    firstVersionWithChunkserverSideChunkLock ≤ server.version

/-- [SPEC chunks.cc:1659-1662] -/
def lockWaitsForReplies (env : Environment) (c : Chunk) : Bool :=
  env.useChunkserverSideChunkLock &&
    c.parts.any fun part => (env.server part.csid).any fun server => needsSideLock server part

/-- A planned part is locked, if its server has to be asked. -/
def lockPart (env : Environment) (state : List ChunkPart × Bool) (planned : PlannedPart) :
    List ChunkPart × Bool :=
  match plannedLivePart env state.1 planned with
  | none => state
  | some (server, part) =>
      if !part.isBusy && server.sendsChunkLock (needsSideLock server part) then
        (modifyPlanned planned (fun part => { part.makeBusy with beingWritten := true }) state.1,
          true)
      else state

/-- [SPEC chunks.cc:1469-1497] -/
def lockOperation (env : Environment) (lockParts : Bool) (planned : List PlannedPart)
    (c : Chunk) : Chunk :=
  let (parts, mustWaitForReply) :=
    if lockParts then planned.foldl (lockPart env) (c.parts, false) else (c.parts, false)
  { c with
    parts := parts
    interrupted := false
    operation := if mustWaitForReply then .lock else .none }

/-! ### New copies -/

/-- The new part of a chunk on a server that was told to make it. -/
def newPart (c : Chunk) (csid : Csid) (type : ChunkPartType) (sentChunkLock : Bool) : ChunkPart :=
  { csid := csid, state := .busy, version := c.version, type := type,
    beingWritten := sentChunkLock }

/-- The chunk takes part in a file with the goal, if it is not in one already. -/
def addFirstFile (env : Environment) (goal : GoalId) (c : Chunk) : Chunk :=
  if c.fileCount = 0 then (c.addFile env goal).1 else c

/-- [SPEC chunks.cc:1370-1394] -/
def createOperation (env : Environment) (goal : GoalId) (planned : List PlannedPart)
    (c : Chunk) : Chunk :=
  let c := addFirstFile env goal { c with interrupted := false, operation := .create }
  updateStats env
    { c with
      parts := c.parts ++ planned.filterMap fun part =>
        (env.plannedPartServer part).map fun server =>
          c.newPart part.csid part.type (server.sendsChunkLock env.useChunkserverSideChunkLock) }

/-- The copies that the parts of another chunk are told to make
[SPEC chunks.cc:1516-1532, 1580-1594]. -/
def copyParts (env : Environment) (locks : Bool) (original : List ChunkPart)
    (planned : List PlannedPart) (c : Chunk) : Chunk :=
  updateStats env
    { c with
      parts := c.parts ++ planned.filterMap fun part =>
        (plannedLivePart env original part).map fun (server, oldPart) =>
          c.newPart oldPart.csid oldPart.type
            (locks && server.sendsChunkLock env.useChunkserverSideChunkLock) }

/-! ### Answers of chunkservers -/

/-- [SPEC chunks.cc:914-931] -/
def finalizeFailedOperation (c : Chunk) : Chunk :=
  { c with
    operation := .none
    parts := c.parts.map fun part =>
      if part.isValid && !part.isBusy && !part.isTodel && part.beingWritten then
        { part with beingWritten := false }
      else part }

/-- A failure on a chunkserver invalidates its part, and the chunk has to get a new
version. -/
def failParts (env : Environment) (csid : Csid) (type : ChunkPartType) (c : Chunk) : Chunk :=
  if c.parts.any (·.isOn csid type) then
    updateStats env
      { c with
        interrupted := true
        parts := c.parts.map fun part => if part.isOn csid type then part.invalidate else part }
  else c

/-- [SPEC chunks.cc:2617-2646] -/
def operationStatus (env : Environment) (csid : Csid) (type : ChunkPartType) (ok : Bool)
    (c : Chunk) : Chunk :=
  let c :=
    if ok then
      { c with parts := c.parts.map fun part =>
          if part.isOn csid type then part.makeIdle else part }
    else c.failParts env csid type
  if c.parts.any (·.isBusy) then c
  else if c.isWritable then
    if c.interrupted then c.emergencyIncreaseVersion env
    else { c with operation := .none, needVersionIncrease := false }
  else c.finalizeFailedOperation

/-- [SPEC chunks.cc:2659-2690] -/
def writeEndStatus (env : Environment) (csid : Csid) (type : ChunkPartType) (ok : Bool)
    (c : Chunk) : Chunk :=
  let c :=
    if ok then
      { c with parts := c.parts.map fun part =>
          if part.isOn csid type then { part with beingWritten := false } else part }
    else c.failParts env csid type
  if !c.parts.any (·.beingWritten) && c.interrupted && c.isWritable then
    c.emergencyIncreaseVersion env
  else c

/-! ### Lost servers -/

/-- [SPEC chunks.cc:933-991] -/
def handleDisconnectedCopies (env : Environment) (c : Chunk) : Chunk :=
  let lost (part : ChunkPart) : Bool := (env.server part.csid).isNone
  let anyLostCopyBeingWritten := c.parts.any fun part => lost part && part.beingWritten
  let lostCopyFound := c.parts.any lost
  let c :=
    if lostCopyFound then
      updateStats env
        { c with parts := c.parts.filter (!lost ·), needVersionIncrease := true }
    else c
  let c := if anyLostCopyBeingWritten then { c with interrupted := true } else c
  if lostCopyFound && c.operation ≠ .none then
    if c.parts.any (·.isBusy) then { c with interrupted := true }
    else if c.isWritable then c.emergencyIncreaseVersion env
    else c.finalizeFailedOperation
  else if anyLostCopyBeingWritten && !c.parts.any (·.beingWritten) && c.isWritable then
    c.emergencyIncreaseVersion env
  else c

end Chunk

end LeilFS.Chunks
