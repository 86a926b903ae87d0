/-
Module: LeilFS.Uraft.Safety
Purpose: At most one node leads a term, as long as votes are forgotten only where this does no
  harm.
Trusted boundary: none
-/
import LeilFS.Uraft.Cluster

namespace LeilFS.Uraft

open StepSystem RaftState List

open Ballot (Role)

variable {n : ℕ}

namespace Cluster

/-! ## Steps that do no harm -/

/-- The node has not voted in its term, or stands for election itself, or no other node can win
its term any more: all have reached it, and none stands for it. -/
def MayForget (c : Cluster n) (i : Fin n) : Prop :=
  (c.node i).votedFor = none ∨ (c.node i).type = .candidate ∨
    ∀ j, j ≠ i → (c.node i).currentTerm ≤ (c.node j).currentTerm ∧
      ((c.node j).type = .candidate → (c.node j).currentTerm ≠ (c.node i).currentTerm)

instance (c : Cluster n) (i : Fin n) : Decidable (c.MayForget i) :=
  inferInstanceAs (Decidable (_ ∨ _))

/-- A node steps down without a new term only where it may forget its vote. The election timer
of a president, which was cancelled when it became leader, does not fire, and terms do not run
out. -/
def Harmless (options : Options n) (c : Cluster n) : Event n → Prop
  | .receivePacket _ _ => True
  | .electionTimeout i _ =>
      (c.node i).president = false ∧ (c.node i).currentTerm + 1 < 2 ^ 64
  | .heartbeat i => ((c.node i).tick i).givesUp options = true → c.MayForget i
  | .loyaltyAgreementTimeout _ => True
  | .demoteLeader i => (c.node i).type ≠ .follower → c.MayForget i
  | .checkNodeStatus i isAlive _ =>
      options.elector i = false → (c.node i).nodeAlive = true → isAlive = false → c.MayForget i

instance (options : Options n) (c : Cluster n) (event : Event n) :
    Decidable (c.Harmless options event) := by
  cases event <;> unfold Harmless <;> infer_instance

/-! ## What holds in every cluster -/

structure Sound (c : Cluster n) : Prop where
  ballot : Ballot.Sound (quorum n) c.ballot
  apart : ∀ packet ∈ c.network, packet.source ≠ packet.destination
  presides : ∀ i, (c.node i).president = true → (c.node i).type = .leader
  received : ∀ i, (c.node i).type = .candidate → ((c.node i).node i).recv = true

/-- Packets that are no news for the election: no votes, and heartbeats of leaders only. -/
def Silent (self : Fin n) (s : RaftState n) (packets : List (Fin n × Rpc)) : Prop :=
  ∀ sent ∈ packets, sent.1 ≠ self ∧
    (∀ term reqTime dataVersion, sent.2 ≠ .rvResponse term true reqTime dataVersion) ∧
    ∀ term time dataVersion, sent.2 = .appendEntries term time dataVersion →
      s.type = .leader ∧ term = s.currentTerm

theorem silent_nil (self : Fin n) (s : RaftState n) : Silent self s [] := by
  simp [Silent]

variable {id : Fin n} {s : RaftState n}

theorem silent_sendHeartbeat {self : Fin n} (leads : s.type = .leader) :
    Silent self s (s.sendHeartbeat self) := by
  rintro ⟨j, rpc⟩ mem
  obtain ⟨k, listed, eq⟩ := mem_map.mp mem
  cases eq
  refine ⟨by simpa using (mem_filter.mp listed).2, fun _ _ _ => by simp, ?_⟩
  intro term time dataVersion eq
  cases eq
  exact ⟨leads, rfl⟩

theorem silent_sendRequestForVotes {self : Fin n} {s s' : RaftState n}
    (received : (s.node self).recv = true) : Silent self s' s.sendRequestForVotes := by
  rintro ⟨j, rpc⟩ mem
  obtain ⟨k, listed, eq⟩ := mem_map.mp mem
  cases eq
  refine ⟨?_, fun _ _ _ => by simp, fun _ _ _ => by simp⟩
  rintro rfl
  have missing := (mem_filter.mp listed).2
  simp [received] at missing

variable {c : Cluster n} {i : Fin n} {outcome : Outcome n} {options : Options n}

section

variable (sound : c.Sound)
include sound

/-- A node does something. -/
theorem Sound.act (ballot : Ballot.Sound (quorum n) (c.act i outcome).ballot)
    (apart : ∀ sent ∈ outcome.2, sent.1 ≠ i)
    (presides : outcome.1.president = true → outcome.1.type = .leader)
    (received : outcome.1.type = .candidate → (outcome.1.node i).recv = true) :
    (c.act i outcome).Sound := by
  refine ⟨ballot, fun packet mem => ?_, fun j => ?_, fun j => ?_⟩
  · obtain prev | sent := mem_append.mp mem
    · exact sound.apart packet prev
    · obtain ⟨item, listed, rfl⟩ := mem_map.mp sent
      exact (apart item listed).symm
  · by_cases eq : j = i
    · rw [eq, act_self]
      exact presides
    · rw [act_of_ne _ eq]
      exact sound.presides j
  · by_cases eq : j = i
    · rw [eq, act_self]
      exact received
    · rw [act_of_ne _ eq]
      exact sound.received j

/-- A leader has sent heartbeats in its term. -/
theorem Sound.mem_led (leads : (c.node i).type = .leader) : (i, (c.node i).currentTerm) ∈ c.led :=
  (sound.ballot.nodes i).leads leads

/-- Nothing happens to the vote of a node. -/
theorem Sound.quiet {packets : List (Fin n × Rpc)}
    (type : s.type = (c.node i).type) (term : s.currentTerm = (c.node i).currentTerm)
    (vote : s.votedFor = (c.node i).votedFor) (leader : s.leaderId = (c.node i).leaderId)
    (counted : s.type = .candidate → ∀ j, (s.node j).voteGranted = true →
      ((c.node i).node j).voteGranted = true ∨ (j, i, s.currentTerm) ∈ c.granted)
    (h : Silent i s packets) (presides : s.president = true → s.type = .leader)
    (received : s.type = .candidate → (s.node i).recv = true) : (c.act i (s, packets)).Sound := by
  have eq : (c.act i (s, packets)).ballot = c.ballot.set i s.ballot := by
    refine ballot_act_silent c i _ (fun sent listed => (h sent listed).2.1) ?_
    intro sent listed t time dataVersion heartbeat
    obtain ⟨leads, rfl⟩ := (h sent listed).2.2 t time dataVersion heartbeat
    rw [term]
    exact sound.mem_led (type ▸ leads)
  refine sound.act ?_ (fun sent listed => (h sent listed).1) presides received
  rw [eq]
  exact sound.ballot.recount type term vote leader counted

/-- Nothing happens at all. -/
theorem Sound.idle (i : Fin n) : (c.act i (c.node i, [])).Sound :=
  sound.quiet rfl rfl rfl rfl (fun _ _ => .inl) (silent_nil _ _) (sound.presides i)
    (sound.received i)

/-! ## Stepping down -/

/-- A new term begins. -/
theorem Sound.checkTerm (i : Fin n) (term : ℕ) :
    (c.act i ((c.node i).checkTerm term, [])).Sound := by
  unfold RaftState.checkTerm
  split
  next newer =>
    have pos : 0 < term := Nat.zero_lt_of_lt newer
    have eq : (c.act i ((c.node i).stepDownToFollower term, [])).ballot =
        c.ballot.set i ((c.node i).stepDownToFollower term).ballot :=
      ballot_act_silent c i _ (by simp) (by simp)
    have current : ((c.node i).stepDownToFollower term).currentTerm = term := if_pos pos
    refine sound.act ?_ (by simp) (by simp [stepDownToFollower])
      (by simp [stepDownToFollower])
    rw [eq]
    refine sound.ballot.newer ?_ ?_ ?_ ?_ ?_
    · show (c.node i).currentTerm < ((c.node i).stepDownToFollower term).currentTerm
      rw [current]
      exact newer
    · exact fun notFollower => absurd rfl notFollower
    · simp [RaftState.ballot, stepDownToFollower]
    · exact fun _ => rfl
    · simp [RaftState.ballot, stepDownToFollower]
  · exact sound.idle i

/-- A node steps down in its term, where this does no harm. -/
theorem Sound.stepDown (harmless : c.MayForget i) (term : s.currentTerm = (c.node i).currentTerm) :
    (c.act i (s.stepDownToFollower 0, [])).Sound := by
  have eq : (c.act i (s.stepDownToFollower 0, [])).ballot =
      c.ballot.set i (s.stepDownToFollower 0).ballot :=
    ballot_act_silent c i _ (by simp) (by simp)
  refine sound.act ?_ (by simp) (by simp [stepDownToFollower])
    (by simp [stepDownToFollower])
  rw [eq]
  exact sound.ballot.forget harmless rfl term rfl

theorem Sound.demoteLeader (harmless : (c.node i).type ≠ .follower → c.MayForget i) :
    (c.act i ((c.node i).demoteLeader, [])).Sound := by
  unfold RaftState.demoteLeader
  split
  · exact sound.idle i
  next notFollower => exact sound.stepDown (harmless notFollower) rfl

theorem Sound.checkNodeStatus {isAlive backoffActive : Bool}
    (harmless : (c.node i).nodeAlive = true → isAlive = false → c.MayForget i) :
    (c.act i ((c.node i).checkNodeStatus isAlive backoffActive, [])).Sound := by
  unfold RaftState.checkNodeStatus
  split
  next died =>
    exact sound.stepDown (harmless died.1 (by simpa using died.2)) rfl
  · exact sound.quiet rfl rfl rfl rfl (fun _ _ => .inl) (silent_nil _ _) (sound.presides i)
      (sound.received i)

/-! ## Timers -/

theorem Sound.electionTimeout (many : 1 < quorum n) {version : ℕ}
    (notPresident : (c.node i).president = false) (lt : (c.node i).currentTerm + 1 < 2 ^ 64) :
    (c.act i ((c.node i).electionTimeout i version)).Sound := by
  unfold RaftState.electionTimeout
  split
  · exact sound.idle i
  set candidate : RaftState n := { (c.node i).candidacy i with dataVersion := version }
  have received : (candidate.node i).recv = true := by simp [candidate, candidacy]
  have silent : Silent i candidate candidate.sendRequestForVotes :=
    silent_sendRequestForVotes received
  have eq : (c.act i (candidate, candidate.sendRequestForVotes)).ballot =
      c.ballot.set i candidate.ballot := by
    refine ballot_act_silent c i _ (fun sent listed => (silent sent listed).2.1) ?_
    intro sent listed t time dataVersion heartbeat
    obtain ⟨leads, -⟩ := (silent sent listed).2.2 t time dataVersion heartbeat
    cases leads
  refine sound.act ?_ (fun sent listed => (silent sent listed).1) ?_ fun _ => received
  · rw [eq]
    refine sound.ballot.newer ?_ (fun _ => rfl) ?_ ?_ fun _ j counted => ?_
    · show (c.node i).currentTerm < ((c.node i).currentTerm + 1) % 2 ^ 64
      rw [Nat.mod_eq_of_lt lt]
      exact Nat.lt_succ_self _
    · exact fun leads => by cases leads
    · exact fun follows => by cases follows
    · by_contra other
      have none : (candidate.node j).voteGranted = false := by
        simp only [candidate, candidacy]
        rw [Function.update_of_ne other]
      have granted : (candidate.node j).voteGranted = true := counted
      rw [none] at granted
      cases granted
  · intro president
    rw [show candidate.president = (c.node i).president from rfl, notPresident] at president
    cases president

theorem Sound.heartbeat (harmless : ((c.node i).tick i).givesUp options = true → c.MayForget i) :
    (c.act i ((c.node i).heartbeat options i)).Sound := by
  unfold RaftState.heartbeat
  dsimp only
  set s := (c.node i).tick i
  have presides : s.president = true → s.type = .leader := sound.presides i
  have received : s.type = .candidate → (s.node i).recv = true := by
    intro stands
    simpa [s, tick] using sound.received i stands
  have counted : s.type = .candidate → ∀ j, (s.node j).voteGranted = true →
      ((c.node i).node j).voteGranted = true ∨ (j, i, s.currentTerm) ∈ c.granted := by
    intro _ j granted
    refine .inl ?_
    by_cases eq : j = i
    · subst eq
      simpa [s, tick] using granted
    · simpa [s, tick, Function.update_of_ne eq] using granted
  split
  next lost =>
    split
    next gives => exact sound.stepDown (harmless gives) rfl
    · -- the president goes on for a while
      exact sound.quiet rfl rfl rfl rfl counted (silent_sendHeartbeat (presides lost.1)) presides
        received
  · generalize resting : (if s.president = true then
      ({ s with quorumLossStreak := 0 } : RaftState n) else s) = t
    obtain ⟨type, term, vote, leader, infos, president⟩ : t.type = s.type ∧
        t.currentTerm = s.currentTerm ∧ t.votedFor = s.votedFor ∧ t.leaderId = s.leaderId ∧
        t.node = s.node ∧ t.president = s.president := by
      rw [← resting]
      split <;> exact ⟨rfl, rfl, rfl, rfl, rfl, rfl⟩
    rw [← type, ← term, ← infos] at counted
    rw [← type, ← infos] at received
    rw [← type, ← president] at presides
    cases role : t.type with
    | follower => exact sound.quiet type term vote leader counted (silent_nil _ _) presides received
    | candidate =>
      exact sound.quiet type term vote leader counted
        (silent_sendRequestForVotes (received role)) presides received
    | leader =>
      exact sound.quiet (role.symm.trans type) term vote leader (fun stands => by cases stands)
        (silent_sendHeartbeat rfl) (fun _ => rfl) fun stands => by cases stands

/-! ## Packets -/

/-- A node has taken up the term of a packet before it looks at the rest. -/
theorem Sound.rpcAppend (ne : id ≠ i) {term : ℕ} (leads : (id, term) ∈ c.led)
    (reached : term ≤ (c.node i).currentTerm) (time : UInt64) (dataVersion version : ℕ) :
    (c.act i ((c.node i).rpcAppend options i id term time dataVersion version)).Sound := by
  unfold RaftState.rpcAppend
  split
  · refine sound.quiet rfl rfl rfl rfl (fun _ _ => .inl) ?_ (sound.presides i) (sound.received i)
    intro sent listed
    rw [mem_singleton.mp listed]
    exact ⟨ne, by simp, by simp⟩
  next current =>
    obtain rfl : term = (c.node i).currentTerm := le_antisymm reached (Nat.not_lt.mp current)
    -- two leaders of one term are one node
    have notLeader : (c.node i).type ≠ .leader := fun leader =>
      ne (sound.ballot.unique id i _ leads (sound.mem_led leader))
    refine sound.act ?_ (by simp [ne]) ?_ (by simp)
    · rw [ballot_act_silent c i _ (by simp) (by simp)]
      exact sound.ballot.follow ne leads rfl rfl rfl rfl
    · exact fun president => absurd (sound.presides i president) notLeader

theorem Sound.rpcReqVote (ne : id ≠ i) (term : ℕ) (time : UInt64) (dataVersion version : ℕ) :
    (c.act i ((c.node i).rpcReqVote options i id term time dataVersion version)).Sound := by
  unfold RaftState.rpcReqVote
  dsimp only
  generalize asked : (if (c.node i).votedFor = none ∧ ¬options.elector i = true then
    ({ c.node i with dataVersion := version } : RaftState n) else c.node i) = s
  obtain ⟨type, current, vote, leader, infos, president⟩ : s.type = (c.node i).type ∧
      s.currentTerm = (c.node i).currentTerm ∧ s.votedFor = (c.node i).votedFor ∧
      s.leaderId = (c.node i).leaderId ∧ s.node = (c.node i).node ∧
      s.president = (c.node i).president := by
    rw [← asked]
    split <;> exact ⟨rfl, rfl, rfl, rfl, rfl, rfl⟩
  cases result : s.grants id term dataVersion with
  | false =>
    refine sound.quiet (s := s) type current vote leader (fun _ _ granted => .inl ?_) ?_ ?_ ?_
    · rwa [infos] at granted
    · intro sent listed
      rw [mem_singleton.mp listed]
      exact ⟨ne, by simp, by simp⟩
    · rw [president, type]
      exact sound.presides i
    · rw [type, infos]
      exact sound.received i
  | true =>
    simp only [grants, Bool.and_eq_true, Bool.or_eq_true, decide_eq_true_eq] at result
    obtain ⟨⟨⟨follows, -⟩, -⟩, free⟩ := result
    have voted : (c.act i ({ s with votedFor := some id },
        [(id, .rvResponse s.currentTerm true time s.dataVersion)])).ballot =
        { c.ballot.set i ({ s with votedFor := some id } : RaftState n).ballot with
          granted := insert (i, id, s.currentTerm) c.granted } :=
      ballot_act_vote c i (s := { s with votedFor := some id })
    refine sound.act ?_ (by simp [ne]) ?_ ?_
    · simp only [if_true]
      rw [voted]
      refine sound.ballot.grant (type.symm.trans follows) ?_ follows current rfl leader
      rw [leader, vote] at free
      obtain ⟨-, heeds⟩ | ⟨-, vote⟩ := free
      · exact .inr (.inr heeds)
      · exact vote.imp_right .inl
    · intro isPresident
      exact type ▸ sound.presides i (president ▸ isPresident)
    · intro stands
      rw [show s.type = .candidate from stands] at follows
      cases follows

theorem Sound.rpcAppendResponse (id : Fin n) (term : ℕ) (reqTime : UInt64) (dataVersion : ℕ) :
    (c.act i ((c.node i).rpcAppendResponse id term reqTime dataVersion, [])).Sound := by
  unfold RaftState.rpcAppendResponse
  split
  · exact sound.idle i
  next current =>
    have leads : (c.node i).type = .leader := not_not.mp (not_or.mp current).2
    have notCandidate : (c.node i).type ≠ .candidate := by simp [leads]
    exact sound.quiet rfl rfl rfl rfl (fun stands => absurd stands notCandidate) (silent_nil _ _)
      (sound.presides i) fun stands => absurd stands notCandidate

end

/-- The nodes that a count of votes counts. -/
theorem voteCount_eq_card (s : RaftState n) : s.voteCount options false =
      (Finset.univ.filter fun j => (s.node j).voteGranted = true).card := by
  rw [voteCount, countP_eq_length_filter, ← toFinset_card_of_nodup ((nodup_finRange n).filter _)]
  simp

theorem Sound.rpcReqVoteResponse (sound : c.Sound) (many : 1 < quorum n) {term : ℕ} {result : Bool}
    (given : result = true → (id, i, term) ∈ c.granted) (reached : term ≤ (c.node i).currentTerm) :
    (c.act i ((c.node i).rpcReqVoteResponse options i id term result)).Sound := by
  unfold RaftState.rpcReqVoteResponse
  split
  · exact sound.idle i
  next current =>
    obtain ⟨notOlder, stands⟩ := not_or.mp current
    have stands : (c.node i).type = .candidate := not_not.mp stands
    obtain rfl : term = (c.node i).currentTerm := le_antisymm reached (Nat.not_lt.mp notOlder)
    dsimp only
    set s : RaftState n := { c.node i with
      node := Function.update (c.node i).node id
        { (c.node i).node id with voteGranted := result, recv := true } }
    -- the answer is counted first
    have counted : (c.act i (s, [])).Sound := by
      refine sound.quiet rfl rfl rfl rfl (fun _ j granted => ?_) (silent_nil _ _) (sound.presides i)
        fun _ => ?_
      · by_cases eq : j = id
        · subst eq
          exact .inr (given (by simpa [s] using granted))
        · exact .inl (by simpa [s, Function.update_of_ne eq] using granted)
      · by_cases eq : i = id
        · subst eq
          simp [s]
        · simpa [s, Function.update_of_ne eq] using sound.received i stands
    split
    next enough =>
      rw [← act_act c i s]
      have here : (c.act i (s, [])).node i = s := act_self ..
      refine counted.act ?_ ?_ (fun _ => rfl) fun candidate => by cases candidate
      · rw [ballot_act_lead _ _ many]
        rw [voteCount_eq_card] at enough
        have standing : ((c.act i (s, [])).ballot.node i) = s.ballot :=
          congrArg RaftState.ballot here
        refine counted.ballot.win ?_ (by rw [standing]; exact stands) enough ?_ rfl
          (by rw [standing]; rfl) (by rw [standing]; rfl)
        · rw [Fintype.card_fin, quorum]
          omega
        · intro j mem
          refine (counted.ballot.nodes i).counts (by rw [standing]; exact stands) j ?_
          rw [standing]
          exact (Finset.mem_filter.mp mem).2
      · exact fun sent listed => (silent_sendHeartbeat rfl sent listed).1
    · exact counted

/-- What a node does with a packet that was sent to it, once it has taken up the term. -/
theorem Sound.dispatch (sound : c.Sound) (many : 1 < quorum n) {rpc : Rpc}
    (sent : ⟨id, i, rpc⟩ ∈ c.network) (reached : rpc.term ≤ (c.node i).currentTerm)
    (version : ℕ) : (c.act i ((c.node i).dispatch options i id rpc version)).Sound := by
  have ne : id ≠ i := sound.apart _ sent
  cases rpc with
  | appendEntries term time dataVersion =>
    exact sound.rpcAppend ne ⟨i, time, dataVersion, sent⟩ reached time dataVersion version
  | requestVote term time dataVersion => exact sound.rpcReqVote ne term time dataVersion version
  | aeResponse term result reqTime dataVersion =>
    exact sound.rpcAppendResponse id term reqTime dataVersion
  | rvResponse term result reqTime dataVersion =>
    refine sound.rpcReqVoteResponse many ?_ reached
    rintro rfl
    exact ⟨reqTime, dataVersion, sent⟩

theorem Sound.receive (sound : c.Sound) (many : 1 < quorum n) {rpc : Rpc}
    (sent : ⟨id, i, rpc⟩ ∈ c.network) (version : ℕ) :
    (c.act i ((c.node i).receive options i id rpc version)).Sound := by
  have here : (c.act i ((c.node i).checkTerm rpc.term, [])).node i =
      (c.node i).checkTerm rpc.term := act_self ..
  have reached : rpc.term ≤ ((c.node i).checkTerm rpc.term).currentTerm := by
    unfold RaftState.checkTerm
    split
    next newer => exact (if_pos (Nat.zero_lt_of_lt newer)).ge
    next older => exact Nat.not_lt.mp older
  have handled : ((c.act i ((c.node i).checkTerm rpc.term, [])).act i
      (((c.act i ((c.node i).checkTerm rpc.term, [])).node i).dispatch options i id rpc
        version)).Sound := by
    refine (sound.checkTerm i rpc.term).dispatch many (mem_append_left _ sent) ?_ version
    rw [here]
    exact reached
  rwa [here, act_act] at handled

/-! ## Runs -/

theorem Sound.step (sound : c.Sound) (many : 1 < quorum n) {event : Event n}
    (harmless : c.Harmless options event) : (c.step options event).Sound := by
  cases event with
  | receivePacket packet version =>
    simp only [Cluster.step]
    split
    next sent => exact sound.receive many sent version
    · exact sound
  | electionTimeout i version => exact sound.electionTimeout many harmless.1 harmless.2
  | heartbeat i => exact sound.heartbeat harmless
  | loyaltyAgreementTimeout i =>
    exact sound.quiet rfl rfl rfl rfl (fun _ _ => .inl) (silent_nil _ _) (sound.presides i)
      (sound.received i)
  | demoteLeader i => exact sound.demoteLeader harmless
  | checkNodeStatus i isAlive backoffActive =>
    simp only [Cluster.step]
    split
    · exact sound
    next metadata =>
      exact sound.checkNodeStatus (harmless (by simpa using metadata))

theorem sound_init (options : Options n) : (init options).Sound where
  ballot := by
    refine ⟨fun i => ?_, ?_, ?_, ?_⟩
    · constructor <;> simp [ballot, RaftState.ballot, init, RaftState.init, granted, led]
    · simp [ballot, init, granted]
    · simp [ballot, init, led]
    · simp [ballot, init, led]
  apart := by simp [init]
  presides := by simp [init, RaftState.init]
  received := by simp [init, RaftState.init]

/-- Packets are not unsent. -/
theorem led_subset_step (event : Event n) : c.led ⊆ (c.step options event).led := by
  have more : ∀ i outcome, c.led ⊆ (c.act i outcome).led := fun i outcome leader mem =>
    (mem_led_act c i outcome).mpr (.inl mem)
  cases event with
  | receivePacket packet version =>
    simp only [Cluster.step]
    split
    · exact more _ _
    · exact subset_rfl
  | electionTimeout i version => exact more _ _
  | heartbeat i => exact more _ _
  | loyaltyAgreementTimeout i => exact more _ _
  | demoteLeader i => exact more _ _
  | checkNodeStatus i isAlive backoffActive =>
    simp only [Cluster.step]
    split
    · exact subset_rfl
    · exact more _ _

/-- In a run in which votes are forgotten only where this does no harm, at most one node is ever
the leader of a term. -/
theorem one_leader_per_term (options : Options n) {first second : List (Event n)}
    (along : StepSystem.Along (step options) (Harmless options) (init options) (first ++ second))
    {a b : Fin n}
    (aLeads : ((run (step options) (init options) first).node a).type = .leader)
    (bLeads : ((run (step options) (init options) (first ++ second)).node b).type =
      .leader)
    (sameTerm : ((run (step options) (init options) first).node a).currentTerm =
      ((run (step options) (init options) (first ++ second)).node b).currentTerm) :
    a = b := by
  by_cases many : 1 < quorum n
  · have earlier : (run (step options) (init options) first).Sound :=
      invariant_run (fun c event sound harmless => sound.step many harmless)
        (sound_init options) (along_append.mp along).1
    have later : (run (step options) (init options) (first ++ second)).Sound :=
      invariant_run (fun c event sound harmless => sound.step many harmless)
        (sound_init options) along
    have kept : (run (step options) (init options) first).led ⊆
        (run (step options) (init options) (first ++ second)).led := by
      rw [run_append]
      exact invariant_run_of_step
        (P := fun c : Cluster n => (run (step options) (init options) first).led ⊆ c.led)
        (fun c event before => before.trans (led_subset_step event)) subset_rfl second
    refine later.ballot.unique a b _ (kept (earlier.mem_led aLeads)) ?_
    rw [sameTerm]
    exact later.mem_led bLeads
  · -- a cluster of one node
    have : Subsingleton (Fin n) := Fin.subsingleton_iff_le_one.mpr (by unfold quorum at many; omega)
    exact Subsingleton.elim a b

/-! ### Three nodes -/

/-- Two metadata servers and an elector. -/
def threeNodes : Options 3 where
  electionTimeoutMin := 300
  heartbeatPeriod := 20
  quorumLossGraceHeartbeats := 5
  elector := fun i => i = 2

/-- The metadata servers are alive, and old agreements have ended. -/
def started : List (Event 3) :=
  [.checkNodeStatus 0 true false, .checkNodeStatus 1 true false, .loyaltyAgreementTimeout 0,
    .loyaltyAgreementTimeout 1, .loyaltyAgreementTimeout 2]

/-- Node 0 is elected by all in term 1. -/
def zeroElected : List (Event 3) :=
  started ++
    [.electionTimeout 0 7, .receivePacket ⟨0, 1, .requestVote 1 16 7⟩ 7,
      .receivePacket ⟨0, 2, .requestVote 1 16 7⟩ 0,
      .receivePacket ⟨2, 0, .rvResponse 1 true 16 0⟩ 0]

/-- When all have reached the term, a leader may step down; then node 1 is elected. -/
def oneElected : List (Event 3) :=
  [.demoteLeader 0, .electionTimeout 1 8, .receivePacket ⟨1, 2, .requestVote 2 16 8⟩ 0,
    .receivePacket ⟨2, 1, .rvResponse 2 true 16 0⟩ 0]

theorem one_leader_per_term_oneElected :
    ((run (step threeNodes) (init threeNodes) zeroElected).node 0).type = .leader ∧
      ((run (step threeNodes) (init threeNodes) (zeroElected ++ oneElected)).node 1).type
        = .leader ∧
      ((run (step threeNodes) (init threeNodes) zeroElected).node 0).currentTerm ≠
        ((run (step threeNodes) (init threeNodes)
          (zeroElected ++ oneElected)).node 1).currentTerm := by
  have along : StepSystem.Along (step threeNodes) (Harmless threeNodes) (init threeNodes)
      (zeroElected ++ oneElected) := by decide
  have zeroLeads : ((run (step threeNodes) (init threeNodes) zeroElected).node 0).type
      = .leader := by decide
  have oneLeads : ((run (step threeNodes) (init threeNodes)
      (zeroElected ++ oneElected)).node 1).type = .leader := by decide
  refine ⟨zeroLeads, oneLeads, fun same => ?_⟩
  exact absurd (one_leader_per_term threeNodes along zeroLeads oneLeads same) (by decide)

/-- Both metadata servers stand in term 1, and node 0 wins with the elector's vote. -/
def bothStand : List (Event 3) :=
  started ++
    [.electionTimeout 0 7, .electionTimeout 1 7, .receivePacket ⟨0, 2, .requestVote 1 16 7⟩ 0,
      .receivePacket ⟨2, 0, .rvResponse 1 true 16 0⟩ 0]

/-- Node 0 is demoted by its administrator and gives the vote it gave itself to node 1. -/
def votesAgain : List (Event 3) :=
  [.demoteLeader 0, .receivePacket ⟨1, 0, .requestVote 1 16 7⟩ 7,
    .receivePacket ⟨0, 1, .rvResponse 1 true 16 7⟩ 7]

theorem two_leaders_votesAgain :
    ((run (step threeNodes) (init threeNodes) bothStand).node 0).type = .leader ∧
      ((run (step threeNodes) (init threeNodes) bothStand).node 0).currentTerm = 1 ∧
      ((run (step threeNodes) (init threeNodes) (bothStand ++ votesAgain)).node 1).type
        = .leader ∧
      ((run (step threeNodes) (init threeNodes)
        (bothStand ++ votesAgain)).node 1).currentTerm = 1 := by
  decide

end Cluster

end LeilFS.Uraft
