/-
Module: LeilFS.Uraft.Cluster
Purpose: A cluster of nodes that elect the active metadata server over a network that loses,
  repeats and reorders packets, and the election that it is.
Trusted boundary: none
-/
import LeilFS.Lib.StepSystem
import LeilFS.Uraft.Node

namespace LeilFS.Uraft

open List

open Ballot (Role)

variable {n : ℕ}

/-! ## The cluster -/

structure Packet (n : ℕ) where
  source : Fin n
  destination : Fin n
  rpc : Rpc
deriving Repr, DecidableEq

/-- The nodes, and every packet that was ever sent. Packets that are lost are never received, and
the others are received at any time and any number of times. -/
structure Cluster (n : ℕ) where
  node : Fin n → RaftState n
  network : List (Packet n)

/-- What can happen. The versions are those that the metadata server of the node reports. -/
inductive Event (n : ℕ) where
  | receivePacket (packet : Packet n) (version : ℕ)
  | electionTimeout (i : Fin n) (version : ℕ)
  | heartbeat (i : Fin n)
  | loyaltyAgreementTimeout (i : Fin n)
  | demoteLeader (i : Fin n)
  | checkNodeStatus (i : Fin n) (isAlive backoffActive : Bool)

namespace Cluster

def init (options : Options n) : Cluster n := ⟨fun _ => RaftState.init options, []⟩

/-- A node has done something. -/
def act (c : Cluster n) (i : Fin n) (outcome : Outcome n) : Cluster n where
  node := Function.update c.node i outcome.1
  network := c.network ++ outcome.2.map fun sent => ⟨i, sent.1, sent.2⟩

/-- Timers may fire at any time. Electors have no metadata server to check. -/
def step (options : Options n) (c : Cluster n) : Event n → Cluster n
  | .receivePacket packet version =>
      if packet ∈ c.network then
        c.act packet.destination ((c.node packet.destination).receive options packet.destination
          packet.source packet.rpc version)
      else c
  | .electionTimeout i version => c.act i ((c.node i).electionTimeout i version)
  | .heartbeat i => c.act i ((c.node i).heartbeat options i)
  | .loyaltyAgreementTimeout i => c.act i ({ c.node i with loyaltyAgreement := false }, [])
  | .demoteLeader i => c.act i ((c.node i).demoteLeader, [])
  | .checkNodeStatus i isAlive backoffActive =>
      if options.elector i then c
      else c.act i ((c.node i).checkNodeStatus isAlive backoffActive, [])

@[simp] theorem act_self (c : Cluster n) (i : Fin n) (outcome : Outcome n) :
    (c.act i outcome).node i = outcome.1 := Function.update_self ..

@[simp] theorem act_of_ne (c : Cluster n) {i j : Fin n} (ne : j ≠ i) (outcome : Outcome n) :
    (c.act i outcome).node j = c.node j := Function.update_of_ne ne ..

/-- Two things that a node does one after the other. -/
theorem act_act (c : Cluster n) (i : Fin n) (first : RaftState n) (second : Outcome n) :
    (c.act i (first, [])).act i second = c.act i second := by
  unfold act
  simp

/-! ## The election -/

/-- A vote was given by a node to another one in a term. -/
def granted (c : Cluster n) : Set (Fin n × Fin n × ℕ) :=
  { vote | ∃ reqTime dataVersion,
    ⟨vote.1, vote.2.1, .rvResponse vote.2.2 true reqTime dataVersion⟩ ∈ c.network }

/-- A node has sent heartbeats in a term. -/
def led (c : Cluster n) : Set (Fin n × ℕ) :=
  { leader | ∃ destination time dataVersion,
    ⟨leader.1, destination, .appendEntries leader.2 time dataVersion⟩ ∈ c.network }

end Cluster

/-- A node, as one of an election. -/
def RaftState.ballot (s : RaftState n) : Ballot.Node (Fin n) where
  role := s.type
  term := s.currentTerm
  vote := s.votedFor
  heeds := s.leaderId
  counted := { j | (s.node j).voteGranted = true }

namespace Cluster

/-- The cluster, as an election. -/
def ballot (c : Cluster n) : Ballot.State (Fin n) where
  node i := (c.node i).ballot
  granted := c.granted
  led := c.led

variable (c : Cluster n) (i : Fin n) (outcome : Outcome n)

theorem mem_network_act {source destination : Fin n} {rpc : Rpc} :
    ⟨source, destination, rpc⟩ ∈ (c.act i outcome).network ↔
      ⟨source, destination, rpc⟩ ∈ c.network ∨ source = i ∧ (destination, rpc) ∈ outcome.2 := by
  refine mem_append.trans (or_congr_right ?_)
  constructor
  · intro sent
    obtain ⟨_, listed, eq⟩ := mem_map.mp sent
    cases eq
    exact ⟨rfl, listed⟩
  · rintro ⟨rfl, listed⟩
    exact mem_map.mpr ⟨_, listed, rfl⟩

theorem mem_granted_act {vote : Fin n × Fin n × ℕ} :
    vote ∈ (c.act i outcome).granted ↔ vote ∈ c.granted ∨ vote.1 = i ∧ ∃ reqTime dataVersion,
        (vote.2.1, Rpc.rvResponse vote.2.2 true reqTime dataVersion) ∈ outcome.2 := by
  simp only [granted, Set.mem_ofPred_eq, mem_network_act, exists_or, exists_and_left]

theorem mem_led_act {leader : Fin n × ℕ} : leader ∈ (c.act i outcome).led ↔ leader ∈ c.led ∨
      leader.1 = i ∧ ∃ destination time dataVersion,
        (destination, Rpc.appendEntries leader.2 time dataVersion) ∈ outcome.2 := by
  simp only [led, Set.mem_ofPred_eq, mem_network_act, exists_or, exists_and_left]

theorem ballot_node_act :
    (c.act i outcome).ballot.node = Function.update c.ballot.node i outcome.1.ballot := by
  funext j
  by_cases eq : j = i
  · rw [eq, Function.update_self]
    exact congrArg RaftState.ballot (act_self ..)
  · rw [Function.update_of_ne eq]
    exact congrArg RaftState.ballot (act_of_ne _ eq _)

/-- Without votes and without heartbeats in a new term, only the node changes. -/
theorem ballot_act_silent (noVote : ∀ sent ∈ outcome.2, ∀ term reqTime dataVersion,
      sent.2 ≠ .rvResponse term true reqTime dataVersion)
    (noLead : ∀ sent ∈ outcome.2, ∀ term time dataVersion,
      sent.2 = .appendEntries term time dataVersion → (i, term) ∈ c.led) :
    (c.act i outcome).ballot = c.ballot.set i outcome.1.ballot := by
  have granted : (c.act i outcome).granted = c.granted := by
    ext vote
    rw [mem_granted_act]
    refine or_iff_left ?_
    rintro ⟨-, reqTime, dataVersion, listed⟩
    exact noVote _ listed _ _ _ rfl
  have led : (c.act i outcome).led = c.led := by
    ext ⟨leader, term⟩
    rw [mem_led_act]
    refine or_iff_left_of_imp ?_
    rintro ⟨self, destination, time, dataVersion, listed⟩
    obtain rfl : leader = i := self
    exact noLead _ listed _ _ _ rfl
  unfold ballot Ballot.State.set
  rw [granted]
  congr 1
  exact ballot_node_act c i outcome

/-- A vote is given. -/
theorem ballot_act_vote {s : RaftState n} {cand : Fin n} {reqTime : UInt64} {dataVersion : ℕ} :
    (c.act i (s, [(cand, .rvResponse s.currentTerm true reqTime dataVersion)])).ballot =
      { c.ballot.set i s.ballot with
        granted := insert (i, cand, s.currentTerm) c.granted } := by
  set outcome : Outcome n := (s, [(cand, .rvResponse s.currentTerm true reqTime dataVersion)])
  have granted : (c.act i outcome).granted = insert (i, cand, s.currentTerm) c.granted := by
    ext ⟨voter, chosen, term⟩
    rw [mem_granted_act, or_comm]
    refine or_congr_left ?_
    simp only [outcome, mem_singleton, Prod.mk.injEq, Rpc.rvResponse.injEq]
    constructor
    · rintro ⟨self, -, -, chosen, term, -⟩
      exact ⟨self, chosen, term⟩
    · rintro ⟨self, chosen, term⟩
      exact ⟨self, _, _, chosen, term, trivial, rfl, rfl⟩
  have led : (c.act i outcome).led = c.led := by
    ext leader
    rw [mem_led_act]
    refine or_iff_left ?_
    rintro ⟨-, destination, time, version, listed⟩
    simp [outcome] at listed
  unfold ballot Ballot.State.set
  rw [granted]
  congr 1
  exact ballot_node_act c i outcome

/-- A node sends heartbeats, to some other node at least. -/
theorem ballot_act_lead {s : RaftState n} (many : 1 < quorum n) :
    (c.act i (s, s.sendHeartbeat i)).ballot =
      { c.ballot.set i s.ballot with led := insert (i, s.currentTerm) c.led } := by
  set outcome : Outcome n := (s, s.sendHeartbeat i)
  have granted : (c.act i outcome).granted = c.granted := by
    ext vote
    rw [mem_granted_act]
    refine or_iff_left ?_
    rintro ⟨-, reqTime, dataVersion, listed⟩
    simp [outcome, RaftState.sendHeartbeat] at listed
  have other : ∃ j, j ≠ i := by
    have : Nontrivial (Fin n) := Fin.nontrivial_iff_two_le.mpr (by unfold quorum at many; omega)
    exact exists_ne i
  have led : (c.act i outcome).led = insert (i, s.currentTerm) c.led := by
    ext ⟨leader, term⟩
    rw [mem_led_act, or_comm]
    refine or_congr_left ?_
    simp only [outcome, RaftState.sendHeartbeat, mem_map, mem_filter, Prod.mk.injEq,
      Rpc.appendEntries.injEq]
    constructor
    · rintro ⟨self, -, -, -, j, -, -, rfl, -, -⟩
      exact ⟨self, rfl⟩
    · rintro ⟨self, rfl⟩
      obtain ⟨j, apart⟩ := other
      exact ⟨self, j, _, _, j, ⟨mem_finRange j, by simpa using apart⟩, rfl, rfl, rfl, rfl⟩
  unfold ballot Ballot.State.set
  rw [granted]
  congr 1
  exact ballot_node_act c i outcome

end Cluster

end LeilFS.Uraft
