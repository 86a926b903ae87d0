/-
Module: LeilFS.Uraft.Node
Purpose: A node of the election of the active metadata server: its state, the timers and the
  handlers of the packets it receives.
Trusted boundary: none
-/
import LeilFS.Lib.Ballot

namespace LeilFS.Uraft

open Ballot (Role)

/-! ## State -/

/-- [SPEC uraft.h:21-31] The options of a cluster, and which of its nodes have no metadata
server. -/
structure Options (n : ℕ) where
  electionTimeoutMin : ℤ
  heartbeatPeriod : ℤ
  quorumLossGraceHeartbeats : ℤ
  elector : Fin n → Bool

/-- [SPEC uraft.cc:499] -/
def quorum (n : ℕ) : ℕ := n / 2 + 1

/-- What a node knows of another one [SPEC uraft.h:74-80]. -/
structure NodeInfo where
  dataVersion : ℕ
  heartbeat : UInt64
  voteGranted : Bool
  recv : Bool
deriving Repr, DecidableEq

/-- [SPEC uraft.h:83-97, 235-245] The states of a node are those of an election; a node
or none stands for an id that may be -1. -/
structure RaftState (n : ℕ) where
  type : Role
  currentTerm : ℕ
  votedFor : Option (Fin n)
  leaderId : Option (Fin n)
  localTime : UInt64
  president : Bool
  loyaltyAgreement : Bool
  dataVersion : ℕ
  node : Fin n → NodeInfo
  blockLeaderPromotion : Bool
  quorumLossStreak : ℤ
  nodeAlive : Bool

/-- [SPEC uraft.h:99-114] -/
inductive Rpc where
  | appendEntries (term : ℕ) (time : UInt64) (dataVersion : ℕ)
  | requestVote (term : ℕ) (time : UInt64) (dataVersion : ℕ)
  | aeResponse (term : ℕ) (result : Bool) (reqTime : UInt64) (dataVersion : ℕ)
  | rvResponse (term : ℕ) (result : Bool) (reqTime : UInt64) (dataVersion : ℕ)
deriving Repr, DecidableEq

def Rpc.term : Rpc → ℕ
  | .appendEntries term _ _ | .requestVote term _ _ => term
  | .aeResponse term _ _ _ | .rvResponse term _ _ _ => term

/-- A node after a handler, and the packets that it sends. -/
abbrev Outcome (n : ℕ) := RaftState n × List (Fin n × Rpc)

namespace RaftState

variable {n : ℕ}

/-- [SPEC uraft.cc:25-42, 454-516, uraftcontroller.cc:53-57] A node waits for the
end of an agreement that it may have had before. -/
def init (options : Options n) : RaftState n where
  type := .follower
  currentTerm := 0
  votedFor := none
  leaderId := none
  localTime := UInt64.ofInt (options.electionTimeoutMin.tdiv options.heartbeatPeriod + 1)
  president := false
  loyaltyAgreement := true
  dataVersion := 0
  node := fun _ => ⟨0, 0, false, false⟩
  blockLeaderPromotion := true
  quorumLossStreak := 0
  nodeAlive := false

/-! ## Votes -/

/-- The time since the last sign of loyalty, as a C `int` [SPEC uraft.cc:87-88]. -/
def timeFromLoyaltyVote (options : Options n) (s : RaftState n) (info : NodeInfo) : ℤ :=
  ((UInt64.ofInt options.heartbeatPeriod * ((s.localTime - info.heartbeat) + 1)).toBitVec.setWidth
    32).toInt

/-- [SPEC uraft.cc:84-94] -/
def voteCount (options : Options n) (s : RaftState n) (countLoyal : Bool) : ℕ :=
  (List.finRange n).countP fun i =>
    (!countLoyal && (s.node i).voteGranted) ||
      (countLoyal &&
        decide (s.timeFromLoyaltyVote options (s.node i) ≤ options.electionTimeoutMin))

/-- [SPEC uraft.cc:108-123] A new term of zero leaves the term as it is. -/
def stepDownToFollower (s : RaftState n) (newTerm : ℕ) : RaftState n :=
  { s with
    currentTerm := if 0 < newTerm then newTerm else s.currentTerm
    type := .follower
    president := false
    votedFor := none
    leaderId := none
    quorumLossStreak := 0 }

/-- [SPEC uraft.cc:97-106] -/
def checkTerm (s : RaftState n) (term : ℕ) : RaftState n :=
  if s.currentTerm < term then s.stepDownToFollower term else s

/-- [SPEC uraft.cc:182-195] -/
def sendHeartbeat (s : RaftState n) (self : Fin n) : List (Fin n × Rpc) :=
  ((List.finRange n).filter (· ≠ self)).map fun i =>
    (i, .appendEntries s.currentTerm s.localTime s.dataVersion)

/-- [SPEC uraft.cc:197-210] -/
def sendRequestForVotes (s : RaftState n) : List (Fin n × Rpc) :=
  ((List.finRange n).filter fun i => !(s.node i).recv).map fun i =>
    (i, .requestVote s.currentTerm s.localTime s.dataVersion)

/-! ## Timers -/

/-- A node stands for election in the next term, and votes for itself
[SPEC uraft.cc:223-236]. -/
def candidacy (self : Fin n) (s : RaftState n) : RaftState n :=
  { s with
    type := .candidate
    currentTerm := (s.currentTerm + 1) % 2 ^ 64
    votedFor := some self
    node := Function.update (fun i => { s.node i with voteGranted := false, recv := false }) self
      ⟨s.dataVersion, s.localTime, true, true⟩ }

/-- [SPEC uraft.cc:212-247] The version is the one that the metadata server reports. -/
def electionTimeout (self : Fin n) (version : ℕ) (s : RaftState n) : Outcome n :=
  if s.blockLeaderPromotion then (s, [])
  else if 1 < quorum n then
    let candidate := { s.candidacy self with dataVersion := version }
    (candidate, candidate.sendRequestForVotes)
  else ({ s.candidacy self with type := .leader }, [])

/-- The time goes on [SPEC uraft.cc:257-258]. -/
def tick (self : Fin n) (s : RaftState n) : RaftState n :=
  let time := s.localTime + 1
  { s with
    localTime := time
    node := Function.update s.node self { s.node self with heartbeat := time } }

/-- [SPEC uraft.cc:263-266] -/
def hasQuorum (options : Options n) (s : RaftState n) : Bool :=
  s.type = .leader && quorum n ≤ s.voteCount options true

/-- A president that has been without a quorum for too long gives up
[SPEC uraft.cc:270-293]. -/
def givesUp (options : Options n) (s : RaftState n) : Bool :=
  s.president && !s.hasQuorum options &&
    decide (options.quorumLossGraceHeartbeats ≤ s.quorumLossStreak + 1)

/-- [SPEC uraft.cc:250-311] -/
def heartbeat (options : Options n) (self : Fin n) (s : RaftState n) : Outcome n :=
  let s := s.tick self
  let hasQuorum := s.hasQuorum options
  if s.president ∧ ¬hasQuorum then
    let s' := { s with quorumLossStreak := s.quorumLossStreak + 1 }
    if s.givesUp options then (s'.stepDownToFollower 0, [])
    else (s', s'.sendHeartbeat self)
  else
    let s := if s.president then { s with quorumLossStreak := 0 } else s
    match s.type with
    | .follower => (s, [])
    | .candidate => (s, s.sendRequestForVotes)
    | .leader =>
        ({ s with president := s.president || hasQuorum }, s.sendHeartbeat self)

/-! ## Packets -/

/-- [SPEC uraft.cc:314-360] -/
def rpcAppend (options : Options n) (self id : Fin n) (term : ℕ) (time : UInt64)
    (dataVersion version : ℕ) (s : RaftState n) : Outcome n :=
  if term < s.currentTerm then
    (s, [(id, .aeResponse s.currentTerm false time s.dataVersion)])
  else
    -- electors keep the highest version, the others ask for theirs when the leader changes
    let kept :=
      if options.elector self then max s.dataVersion dataVersion
      else if s.leaderId ≠ some id then version
      else s.dataVersion
    let s := { s with
      dataVersion := kept
      leaderId := some id
      loyaltyAgreement := true
      type := .follower }
    (s, [(id, .aeResponse s.currentTerm true time s.dataVersion)])

/-- [SPEC uraft.cc:364-376] -/
def rpcAppendResponse (id : Fin n) (term : ℕ) (reqTime : UInt64) (dataVersion : ℕ)
    (s : RaftState n) : RaftState n :=
  if term < s.currentTerm ∨ s.type ≠ .leader then s
  else
    { s with
      node := Function.update s.node id
        ⟨dataVersion, max (s.node id).heartbeat reqTime, true, true⟩ }

/-- Whether a vote is given [SPEC uraft.cc:393-398]. -/
def grants (s : RaftState n) (id : Fin n) (term dataVersion : ℕ) : Bool :=
  s.type = .follower && s.currentTerm ≤ term && s.dataVersion ≤ dataVersion &&
    ((s.loyaltyAgreement && s.leaderId = some id) ||
      (!s.loyaltyAgreement && (s.votedFor = none || s.votedFor = some id)))

/-- [SPEC uraft.cc:379-406] -/
def rpcReqVote (options : Options n) (self id : Fin n) (term : ℕ) (time : UInt64)
    (dataVersion version : ℕ) (s : RaftState n) : Outcome n :=
  let s :=
    if s.votedFor = none ∧ ¬options.elector self then { s with dataVersion := version } else s
  let result := s.grants id term dataVersion
  (if result then { s with votedFor := some id } else s,
    [(id, .rvResponse s.currentTerm result time s.dataVersion)])

/-- [SPEC uraft.cc:409-425] -/
def rpcReqVoteResponse (options : Options n) (self id : Fin n) (term : ℕ) (result : Bool)
    (s : RaftState n) : Outcome n :=
  if term < s.currentTerm ∨ s.type ≠ .candidate then (s, [])
  else
    let s := { s with
      node := Function.update s.node id { s.node id with voteGranted := result, recv := true } }
    if quorum n ≤ s.voteCount options false then
      let leader := { s with type := .leader, leaderId := some self }
      (leader, leader.sendHeartbeat self)
    else (s, [])

/-- [SPEC uraft.cc:436-449] -/
def dispatch (options : Options n) (self id : Fin n) (rpc : Rpc) (version : ℕ)
    (s : RaftState n) : Outcome n :=
  match rpc with
  | .appendEntries term time dataVersion =>
      s.rpcAppend options self id term time dataVersion version
  | .requestVote term time dataVersion =>
      s.rpcReqVote options self id term time dataVersion version
  | .aeResponse term _ reqTime dataVersion =>
      (s.rpcAppendResponse id term reqTime dataVersion, [])
  | .rvResponse term result _ _ => s.rpcReqVoteResponse options self id term result

/-- [SPEC uraft.cc:428-452] -/
def receive (options : Options n) (self id : Fin n) (rpc : Rpc) (version : ℕ)
    (s : RaftState n) : Outcome n :=
  (s.checkTerm rpc.term).dispatch options self id rpc version

/-! ## The controller -/

/-- [SPEC uraft.cc:518-527] -/
def demoteLeader (s : RaftState n) : RaftState n :=
  if s.type = .follower then s else s.stepDownToFollower 0

/-- [SPEC uraftcontroller.cc:260-303] With what is known of the metadata server. -/
def checkNodeStatus (isAlive backoffActive : Bool) (s : RaftState n) : RaftState n :=
  let s' := { s with
    blockLeaderPromotion := !isAlive || backoffActive
    nodeAlive := isAlive }
  if s.nodeAlive ∧ ¬isAlive then s'.stepDownToFollower 0 else s'

end RaftState

end LeilFS.Uraft
