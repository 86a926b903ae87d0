/-
Module: LeilFS.Uraft.Terms
Purpose: The terms of a uRaft cluster only grow, and no packet is ahead of its sender.
Trusted boundary: none
-/
import LeilFS.Uraft.Safety

namespace LeilFS.Uraft

open RaftState StepSystem List

variable {n : ℕ} {options : Options n} {s : RaftState n} {self : Fin n}

/-- A node is in a term, and sends packets of this term. -/
def InTerm (term : ℕ) (outcome : Outcome n) : Prop :=
  outcome.1.currentTerm = term ∧ ∀ sent ∈ outcome.2, sent.2.term = term

theorem le_checkTerm (term : ℕ) : s.currentTerm ≤ (s.checkTerm term).currentTerm := by
  unfold checkTerm stepDownToFollower
  split <;> grind

theorem inTerm_nil : InTerm s.currentTerm (s, []) := ⟨rfl, forall_mem_nil _⟩

theorem inTerm_sendHeartbeat : InTerm s.currentTerm (s, s.sendHeartbeat self) := by
  simp [InTerm, sendHeartbeat, Rpc.term]

theorem inTerm_sendRequestForVotes : InTerm s.currentTerm (s, s.sendRequestForVotes) := by
  simp [InTerm, sendRequestForVotes, Rpc.term]

theorem inTerm_heartbeat : InTerm s.currentTerm (s.heartbeat options self) := by
  unfold heartbeat
  dsimp only
  repeat' split
  all_goals first
    | exact inTerm_sendHeartbeat
    | exact inTerm_sendRequestForVotes
    | exact inTerm_nil

theorem inTerm_dispatch (id : Fin n) (rpc : Rpc) (version : ℕ) :
    InTerm s.currentTerm (s.dispatch options self id rpc version) := by
  cases rpc <;> simp only [dispatch, rpcAppend, rpcReqVote, rpcAppendResponse, rpcReqVoteResponse]
  case rvResponse =>
    repeat' split
    all_goals first | exact inTerm_sendHeartbeat | exact inTerm_nil
  all_goals split <;> (try split) <;> simp [InTerm, Rpc.term]

namespace Cluster

/-- Every node has reached its least term, and no packet is ahead of its sender. -/
structure Reached (c : Cluster n) (least : Fin n → ℕ) : Prop where
  nodes : ∀ i, least i ≤ (c.node i).currentTerm
  packets : ∀ packet ∈ c.network, packet.rpc.term ≤ (c.node packet.source).currentTerm

/-- A node that becomes a candidate has a further 64-bit term to go to. -/
def HasNextTerm (c : Cluster n) : Event n → Prop
  | .electionTimeout i _ =>
      (c.node i).blockLeaderPromotion = false → (c.node i).currentTerm + 1 < 2 ^ 64
  | _ => True

instance (c : Cluster n) : (event : Event n) → Decidable (c.HasNextTerm event)
  | .electionTimeout .. => inferInstanceAs (Decidable (_ → _))
  | .receivePacket .. | .heartbeat _ | .loyaltyAgreementTimeout _ | .demoteLeader _
  | .checkNodeStatus .. => .isTrue trivial

variable {c : Cluster n} {least : Fin n → ℕ} (h : c.Reached least)
include h

theorem Reached.act {i : Fin n} {outcome : Outcome n} {term : ℕ} (inTerm : InTerm term outcome)
    (le : (c.node i).currentTerm ≤ term) : (c.act i outcome).Reached least := by
  have grows (j : Fin n) : (c.node j).currentTerm ≤ ((c.act i outcome).node j).currentTerm := by
    by_cases eq : j = i
    · rw [eq, act_self, inTerm.1]
      exact le
    · rw [act_of_ne c eq]
  refine ⟨fun j => (h.nodes j).trans (grows j), fun packet mem => ?_⟩
  obtain old | new := mem_append.mp mem
  · exact (h.packets packet old).trans (grows _)
  · obtain ⟨sent, there, rfl⟩ := mem_map.mp new
    rw [act_self, inTerm.1, inTerm.2 sent there]

/-- Only a candidacy in the last term could take a term back. -/
theorem Reached.step {event : Event n} (next : c.HasNextTerm event) :
    (c.step options event).Reached least := by
  have stays {i outcome} (inTerm : InTerm (c.node i).currentTerm outcome) :
      (c.act i outcome).Reached least := h.act inTerm le_rfl
  cases event with
  | receivePacket packet version =>
    rw [Cluster.step]
    split
    · exact h.act (inTerm_dispatch ..) (le_checkTerm _)
    · exact h
  | electionTimeout i version =>
    rw [Cluster.step, RaftState.electionTimeout]
    split
    · exact stays inTerm_nil
    next free =>
    have le : (c.node i).currentTerm ≤ ((c.node i).candidacy i).currentTerm :=
      (Nat.le_succ _).trans (Nat.mod_eq_of_lt (next (Bool.eq_false_of_not_eq_true free))).ge
    split
    · exact h.act inTerm_sendRequestForVotes le
    · exact h.act inTerm_nil le
  | heartbeat i => exact stays inTerm_heartbeat
  | loyaltyAgreementTimeout i => exact stays inTerm_nil
  | demoteLeader i =>
    refine stays ?_
    unfold RaftState.demoteLeader
    split <;> exact inTerm_nil
  | checkNodeStatus i isAlive backoffActive =>
    rw [Cluster.step]
    split
    · exact h
    refine stays ?_
    unfold RaftState.checkNodeStatus
    split <;> exact inTerm_nil

theorem Reached.run {events : List (Event n)}
    (along : Along (Cluster.step options) HasNextTerm c events) :
    (run (Cluster.step options) c events).Reached least :=
  invariant_run (P := (Reached · least)) (fun _ _ h next => h.step next) h along

omit h

/-- While no term overflows, terms never go back, whatever is lost, delayed or received again, and
no packet carries a term that its sender has not reached. -/
theorem terms_advance (options : Options n) {first second : List (Event n)}
    (along : Along (step options) HasNextTerm (init options) (first ++ second)) :
    let before := run (step options) (init options) first
    let after := run (step options) (init options) (first ++ second)
    (∀ i, (before.node i).currentTerm ≤ (after.node i).currentTerm) ∧
      ∀ packet ∈ after.network, packet.rpc.term ≤ (after.node packet.source).currentTerm := by
  obtain ⟨early, late⟩ := along_append.mp along
  have start : (init options).Reached fun _ => 0 := ⟨fun _ => le_rfl, forall_mem_nil _⟩
  have before := start.run early
  have after := Reached.run ⟨fun _ => le_rfl, before.packets⟩ late
  rw [← run_append] at after
  exact ⟨after.nodes, after.packets⟩

theorem terms_advance_oneElected :
    let after := run (step threeNodes) (init threeNodes) (zeroElected ++ oneElected)
    (after.node 1).currentTerm = 2 ∧
      ∀ packet ∈ after.network, packet.rpc.term ≤ (after.node packet.source).currentTerm :=
  ⟨by decide, (terms_advance threeNodes (by decide)).2⟩

end Cluster

end LeilFS.Uraft
