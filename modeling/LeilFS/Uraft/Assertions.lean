/-
Module: LeilFS.Uraft.Assertions
Purpose: The assertions of a node hold, as long as no heartbeat of an earlier term reaches a
  leader and the election stays sound.
Trusted boundary: none
-/
import LeilFS.Uraft.Safety

namespace LeilFS.Uraft

open StepSystem RaftState List

variable {n : ℕ}

def Rpc.isAppendEntries : Rpc → Bool
  | .appendEntries .. => true
  | _ => false

namespace Cluster

/-- The assertions that a handler executes hold [SPEC uraft.cc:98-101, 269-271, 319]. -/
def Asserts (c : Cluster n) : Event n → Prop
  | .receivePacket packet _ =>
      let s := c.node packet.destination
      packet ∈ c.network →
        (s.currentTerm < packet.rpc.term → s.president = true → s.type ≠ .follower) ∧
        (packet.rpc.isAppendEntries = true → (s.checkTerm packet.rpc.term).type ≠ .leader)
  | .heartbeat i => ((c.node i).tick i).president = true → ((c.node i).tick i).type ≠ .follower
  | _ => True

/-- The network has lost the heartbeats of earlier terms by the time their receiver leads. -/
def Fresh (c : Cluster n) : Event n → Prop
  | .receivePacket packet _ => packet.rpc.isAppendEntries = true →
      (c.node packet.destination).type = .leader →
      (c.node packet.destination).currentTerm ≤ packet.rpc.term
  | _ => True

instance (c : Cluster n) : (event : Event n) → Decidable (c.Fresh event)
  | .receivePacket .. => inferInstanceAs (Decidable (_ → _ → _))
  | .electionTimeout .. | .heartbeat .. | .loyaltyAgreementTimeout .. | .demoteLeader ..
  | .checkNodeStatus .. => .isTrue trivial

variable {c : Cluster n} {options : Options n}

theorem Sound.asserts (h : c.Sound) {event : Event n} (fresh : c.Fresh event) :
    c.Asserts event := by
  have leads : ∀ i, (c.node i).president = true → (c.node i).type ≠ .follower :=
    fun i president => by simp [h.presides i president]
  cases event with
  | receivePacket packet version =>
    refine fun sent => ⟨fun _ => leads _, fun append leader => ?_⟩
    unfold RaftState.checkTerm at leader
    split at leader
    · cases leader
    next older =>
      -- the heartbeat of another leader of the same term
      obtain ⟨source, destination, rpc⟩ := packet
      cases rpc with
      | appendEntries term time dataVersion =>
        have eq : term = (c.node destination).currentTerm :=
          (Nat.not_lt.mp older).antisymm (fresh rfl leader)
        have led : (source, (c.node destination).currentTerm) ∈ c.led :=
          ⟨destination, time, dataVersion, eq ▸ sent⟩
        exact h.apart _ sent (h.ballot.unique _ _ _ led (h.mem_led leader))
      | requestVote | aeResponse | rvResponse => cases append
  | heartbeat i => exact leads i
  | electionTimeout | loyaltyAgreementTimeout | demoteLeader | checkNodeStatus => trivial

/-- A node alone is elected at once and sends nothing. -/
structure Alone (c : Cluster n) : Prop where
  silent : c.network = []
  settled : ∀ i, (c.node i).type ≠ .candidate ∧
    ((c.node i).president = true → (c.node i).type = .leader)

theorem Alone.act (h : c.Alone) {i : Fin n} {outcome : Outcome n} (silent : outcome.2 = [])
    (settled : outcome.1.type ≠ .candidate ∧
      (outcome.1.president = true → outcome.1.type = .leader)) : (c.act i outcome).Alone := by
  refine ⟨by simp [Cluster.act, h.silent, silent], fun j => ?_⟩
  by_cases eq : j = i
  · rwa [eq, act_self]
  · rw [act_of_ne _ eq]
    exact h.settled j

theorem Alone.step (one : ¬ 1 < quorum n) (event : Event n) (h : c.Alone) :
    (c.step options event).Alone := by
  have : Subsingleton (Fin n) := Fin.subsingleton_iff_le_one.mpr (by unfold quorum at one; omega)
  have nobody (s : RaftState n) (i : Fin n) : s.sendHeartbeat i = [] := by
    simp [sendHeartbeat, Subsingleton.elim _ i]
  cases event with
  | receivePacket packet version =>
    rwa [Cluster.step, if_neg (by simp [h.silent])]
  | electionTimeout i version =>
    have settled := h.settled i
    refine h.act ?_ ?_ <;> unfold RaftState.electionTimeout <;> grind
  | heartbeat i =>
    have settled : ((c.node i).tick i).type ≠ .candidate ∧
        (((c.node i).tick i).president = true → ((c.node i).tick i).type = .leader) :=
      h.settled i
    refine h.act ?_ ?_ <;> unfold RaftState.heartbeat <;> grind [stepDownToFollower]
  | loyaltyAgreementTimeout i => exact h.act rfl (h.settled i)
  | demoteLeader i =>
    have settled := h.settled i
    refine h.act rfl ?_
    unfold RaftState.demoteLeader
    grind [stepDownToFollower]
  | checkNodeStatus i isAlive backoffActive =>
    have settled := h.settled i
    simp only [Cluster.step]
    split
    · exact h
    · refine h.act rfl ?_
      unfold RaftState.checkNodeStatus
      grind [stepDownToFollower]

/-- In a run without heartbeats of earlier terms at leaders, in which votes are forgotten only
where this does no harm, every assertion that is executed holds. -/
theorem assertions_hold (options : Options n) {events : List (Event n)} {event : Event n}
    (along : Along (step options) (fun c event => c.Harmless options event ∧ c.Fresh event)
      (init options) (events ++ [event])) :
    (run (step options) (init options) events).Asserts event := by
  obtain ⟨before, ⟨-, fresh⟩, -⟩ := along_append.mp along
  by_cases many : 1 < quorum n
  · have sound : (run (step options) (init options) events).Sound :=
      invariant_run (fun c event sound ok => sound.step many ok.1) (sound_init options) before
    exact sound.asserts fresh
  have alone : (run (step options) (init options) events).Alone :=
    invariant_run_of_step (fun c event => Alone.step many event)
      ⟨rfl, by simp [init, RaftState.init]⟩ events
  cases event with
  | receivePacket packet version => exact fun sent => absurd sent (by simp [alone.silent])
  | heartbeat i => exact fun president => by simp [tick, (alone.settled i).2 president]
  | electionTimeout | loyaltyAgreementTimeout | demoteLeader | checkNodeStatus => trivial

/-- The elector answers a heartbeat of node 1, which becomes president with the next one. It counts
its votes, and its heartbeat reaches node 0, which it takes to term 2. -/
theorem assertions_hold_onePresides :
    let events := zeroElected ++ oneElected ++
      [.receivePacket ⟨1, 2, .appendEntries 2 16 8⟩ 0,
        .receivePacket ⟨2, 1, .aeResponse 2 true 16 8⟩ 0, .heartbeat 1]
    let c := run (step threeNodes) (init threeNodes) events
    ((c.node 1).tick 1).president = true ∧ c.Asserts (.heartbeat 1) ∧
      ⟨1, 0, .appendEntries 2 17 8⟩ ∈ c.network ∧ (c.node 0).currentTerm = 1 ∧
      c.Asserts (.receivePacket ⟨1, 0, .appendEntries 2 17 8⟩ 7) :=
  ⟨by decide, assertions_hold threeNodes (by decide), by decide, by decide,
    assertions_hold threeNodes (by decide)⟩

/-- The first heartbeat of node 0 in term 1 reaches node 1 when it leads term 2. -/
theorem asserts_old_heartbeat :
    ¬ (run (step threeNodes) (init threeNodes) (zeroElected ++ oneElected)).Asserts
      (.receivePacket ⟨0, 1, .appendEntries 1 16 7⟩ 8) := fun asserts =>
  (asserts (by decide)).2 rfl (by decide)

end Cluster

end LeilFS.Uraft
