/-
Module: LeilFS.Lib.Ballot
Purpose: Elections by votes that are given term by term, with voters who may forget a vote, and
  why nobody but one node wins a term.
Trusted boundary: none
-/
import Mathlib

namespace Ballot

/-!
A node follows, stands for election or leads in its current term, and holds the vote that it gave
in that term.  The votes that were ever given to somebody else and the terms that were ever led are
kept as sets, which only grow.  A node may give a vote again to the leader that it heeds.  Nodes
may also forget their vote without a new term, but only where this can do no harm: nothing was
given, or it was the node's own vote and the node gives up, or nobody can win the term any more.
-/

variable {ν : Type*}

inductive Role where
  | follower | candidate | leader
deriving Repr, DecidableEq

/-- What a node knows: `heeds` is the leader that it follows, and `counted` are the nodes that it
counts as its voters. -/
structure Node (ν : Type*) where
  role : Role
  term : ℕ
  vote : Option ν
  heeds : Option ν
  counted : Set ν

/-- The nodes, the votes given so far by somebody to somebody else in a term, and who has led
which term. -/
structure State (ν : Type*) where
  node : ν → Node ν
  granted : Set (ν × ν × ℕ)
  led : Set (ν × ℕ)

/-- Nobody can win the term any more: every node has reached it and none stands for it. -/
def Settled (s : State ν) (term : ℕ) : Prop :=
  ∀ i, term ≤ (s.node i).term ∧ ((s.node i).role = .candidate → (s.node i).term ≠ term)

/-- No harm is done when the node forgets the vote of its term. -/
def MayForget (s : State ν) (i : ν) : Prop :=
  (s.node i).vote = none ∨ (s.node i).role = .candidate ∨
    ∀ j, j ≠ i → (s.node i).term ≤ (s.node j).term ∧
      ((s.node j).role = .candidate → (s.node j).term ≠ (s.node i).term)

section Update

variable [DecidableEq ν]

/-- The state with another node in the place of one. -/
def State.set (s : State ν) (i : ν) (x : Node ν) : State ν :=
  { s with node := Function.update s.node i x }

end Update

/-! ## What holds in every election -/

/-- The vote of a node, as far as the history goes. -/
structure Node.Sound (s : State ν) (i : ν) (x : Node ν) : Prop where
  own : x.role ≠ .follower → x.vote = some i
  heeded : ∀ leader, x.role = .follower → x.heeds = some leader → (leader, x.term) ∈ s.led
  leads : x.role = .leader → (i, x.term) ∈ s.led
  ledReached : ∀ term, (i, term) ∈ s.led → term ≤ x.term
  ledKept : ∀ term, (i, term) ∈ s.led → x.term = term → x.role = .leader ∨ Settled s term
  reached : ∀ k term, (i, k, term) ∈ s.granted → term ≤ x.term
  follows : ∀ k term, (i, k, term) ∈ s.granted → x.term = term → x.role = .follower
  kept : ∀ k term, (i, k, term) ∈ s.granted → x.term = term →
    Settled s term ∨ (k, term) ∈ s.led ∨
      ∃ holder, x.vote = some holder ∧ (holder = k ∨ (holder, term) ∈ s.led)
  counts : x.role = .candidate → ∀ j ∈ x.counted, j = i ∨ (j, i, x.term) ∈ s.granted

/-- A leader was elected by voters who voted for nobody else, and has voted for nobody else. -/
def Elected (quorum : ℕ) (s : State ν) (a : ν) (term : ℕ) : Prop :=
  (∀ k, (a, k, term) ∉ s.granted) ∧
    ∃ voters : Finset ν, quorum ≤ voters.card ∧ ∀ j ∈ voters, j ≠ a →
      (j, a, term) ∈ s.granted ∧ (∀ k, (j, k, term) ∈ s.granted → k = a) ∧
        ((s.node j).term = term → (s.node j).vote = some a)

structure Sound (quorum : ℕ) (s : State ν) : Prop where
  nodes : ∀ i, (s.node i).Sound s i
  once : ∀ j k l term, (j, k, term) ∈ s.granted → (j, l, term) ∈ s.granted →
    k = l ∨ (k, term) ∈ s.led ∨ (l, term) ∈ s.led ∨ Settled s term
  unique : ∀ a b term, (a, term) ∈ s.led → (b, term) ∈ s.led → a = b
  elected : ∀ a term, (a, term) ∈ s.led → Settled s term ∨ Elected quorum s a term

section Preservation

variable {quorum : ℕ} {s s' : State ν} {i : ν} {x : Node ν}

/-- Terms do not go back, and who stands for a term has stood for it before or is new to it. -/
structure Advances (old new : Node ν) : Prop where
  term : old.term ≤ new.term
  stands : new.role = .candidate → new.term = old.term → old.role = .candidate

/-- A settled term stays settled. -/
theorem Settled.of_advances {term : ℕ} (h : Settled s term)
    (advances : ∀ j, Advances (s.node j) (s'.node j)) : Settled s' term := by
  intro j
  obtain ⟨reached, notStanding⟩ := h j
  refine ⟨reached.trans (advances j).term, fun standing eq => ?_⟩
  have old : (s'.node j).term = (s.node j).term := le_antisymm (eq ▸ reached) (advances j).term
  exact notStanding ((advances j).stands standing old) (old ▸ eq)

/-- What was sound of a node stays so as the history grows, as long as the node is not part of
what is new. -/
theorem Node.Sound.of_history (h : x.Sound s i) (settled : ∀ term, Settled s term → Settled s' term)
    (granted : ∀ k term, (i, k, term) ∈ s'.granted → (i, k, term) ∈ s.granted)
    (led : ∀ term, (i, term) ∈ s'.led → (i, term) ∈ s.led)
    (moreGranted : s.granted ⊆ s'.granted) (moreLed : s.led ⊆ s'.led) : x.Sound s' i where
  own := h.own
  heeded leader follows heeds := moreLed (h.heeded leader follows heeds)
  leads role := moreLed (h.leads role)
  ledReached term given := h.ledReached term (led term given)
  ledKept term given same := (h.ledKept term (led term given) same).imp_right (settled term)
  reached k term given := h.reached k term (granted k term given)
  follows k term given := h.follows k term (granted k term given)
  kept k term given same := by
    obtain done | leads | ⟨holder, vote, which⟩ := h.kept k term (granted k term given) same
    · exact .inl (settled term done)
    · exact .inr (.inl (moreLed leads))
    · exact .inr (.inr ⟨holder, vote, which.imp_right fun leads => moreLed leads⟩)
  counts role j counted := (h.counts role j counted).imp_right fun given => moreGranted given

/-- In a new term a node has voted for nobody else and has not led. -/
theorem Node.Sound.newer {old : Node ν} (h : old.Sound s i) (newer : old.term < x.term)
    (own : x.role ≠ .follower → x.vote = some i) (notLeader : x.role ≠ .leader)
    (heeds : x.role = .follower → x.heeds = none)
    (counted : x.role = .candidate → x.counted ⊆ {i}) : x.Sound s i where
  own := own
  heeded leader follows heard := by
    rw [heeds follows] at heard
    cases heard
  leads leader := absurd leader notLeader
  ledReached term leads := (h.ledReached term leads).trans newer.le
  ledKept term leads same := absurd (h.ledReached term leads) (same ▸ newer).not_ge
  reached k term given := (h.reached k term given).trans newer.le
  follows k term given same := absurd (h.reached k term given) (same ▸ newer).not_ge
  kept k term given same := absurd (h.reached k term given) (same ▸ newer).not_ge
  counts standing j member := .inl (counted standing member)

theorem Advances.of_not_standing {old : Node ν} (term : x.term = old.term)
    (notCandidate : x.role ≠ .candidate) : Advances old x :=
  ⟨term.ge, fun standing _ => absurd standing notCandidate⟩

/-- A follower in the term that it was in. -/
theorem Node.Sound.following {old : Node ν} (h : old.Sound s i) (role : x.role = .follower)
    (term : x.term = old.term)
    (heeded : ∀ leader, x.heeds = some leader → (leader, old.term) ∈ s.led)
    (ledKept : (i, old.term) ∈ s.led → Settled s old.term)
    (kept : ∀ k, (i, k, old.term) ∈ s.granted → Settled s old.term ∨ (k, old.term) ∈ s.led ∨
      ∃ holder, x.vote = some holder ∧ (holder = k ∨ (holder, old.term) ∈ s.led)) :
    x.Sound s i where
  own notFollower := absurd role notFollower
  heeded leader _ heard := term ▸ heeded leader heard
  leads leader := nomatch role.symm.trans leader
  ledReached := term ▸ h.ledReached
  ledKept t leads same := by
    obtain rfl : old.term = t := term.symm.trans same
    exact .inr (ledKept leads)
  reached := term ▸ h.reached
  follows _ _ _ _ := role
  kept k t given same := by
    obtain rfl : old.term = t := term.symm.trans same
    exact kept k given
  counts standing := nomatch role.symm.trans standing

/-- Who stands for a term has given no vote away in it. -/
theorem Node.Sound.none_given {old : Node ν} (h : old.Sound s i) (stands : old.role = .candidate)
    (k : ν) : (i, k, old.term) ∉ s.granted := fun given =>
  nomatch stands.symm.trans (h.follows k _ given rfl)

/-- An election stays one when its voters do not change their votes. -/
theorem Elected.of_history {a : ν} {term : ℕ} (h : Elected quorum s a term)
    (granted : ∀ j k, (j, k, term) ∈ s'.granted → (j, k, term) ∈ s.granted ∨
      j ≠ a ∧ ((j, a, term) ∈ s.granted → (∀ k, (j, k, term) ∈ s.granted → k = a) →
        ((s.node j).term = term → (s.node j).vote = some a) → k = a))
    (moreGranted : s.granted ⊆ s'.granted)
    (votes : ∀ j, j ≠ a → (j, a, term) ∈ s.granted → (s'.node j).term = term →
      ((s.node j).term = term → (s.node j).vote = some a) → (s'.node j).vote = some a) :
    Elected quorum s' a term := by
  obtain ⟨noneGiven, voters, enough, firm⟩ := h
  refine ⟨fun k given => ?_, voters, enough, fun j mem other => ?_⟩
  · obtain prev | ⟨notSelf, -⟩ := granted a k given
    · exact noneGiven k prev
    · exact notSelf rfl
  · obtain ⟨given, only, vote⟩ := firm j mem other
    refine ⟨moreGranted given, fun k also => ?_, fun eq => votes j other given eq vote⟩
    obtain prev | ⟨-, new⟩ := granted j k also
    · exact only k prev
    · exact new given only vote

end Preservation

/-! ## One node changes -/

section OneNode

variable [DecidableEq ν] {quorum : ℕ} {s : State ν} {i : ν} {x : Node ν}

@[simp] theorem State.set_self : (s.set i x).node i = x := Function.update_self ..

@[simp] theorem State.set_of_ne {j : ν} (ne : j ≠ i) : (s.set i x).node j = s.node j :=
  Function.update_of_ne ne ..

/-- A property of a node and its place, after one node is replaced. -/
theorem State.set_cases {motive : ν → Node ν → Prop} (self : motive i x)
    (others : ∀ j, j ≠ i → motive j (s.node j)) (j : ν) : motive j ((s.set i x).node j) := by
  by_cases eq : j = i
  · rw [eq, State.set_self]
    exact self
  · rw [State.set_of_ne eq]
    exact others j eq

theorem advances_set (step : Advances (s.node i) x) :
    ∀ j, Advances (s.node j) ((s.set i x).node j) :=
  State.set_cases step fun _ _ => ⟨le_rfl, fun standing _ => standing⟩

/-- A candidate that leads its term from now on. -/
theorem Node.Sound.leading {old : Node ν} (h : old.Sound s i) (stands : old.role = .candidate)
    (role : x.role = .leader) (term : x.term = old.term) (vote : x.vote = old.vote) :
    x.Sound { s.set i x with led := insert (i, x.term) s.led } i where
  own _ := vote.trans (h.own (by simp [stands]))
  heeded _ follower := nomatch role.symm.trans follower
  leads _ := Set.mem_insert _ _
  ledReached t mem := by
    obtain new | before := mem
    · exact (Prod.mk.inj new).2.le
    · exact term ▸ h.ledReached t before
  ledKept _ _ _ := .inl role
  reached := term ▸ h.reached
  follows k t given at_ := by
    obtain rfl : old.term = t := term.symm.trans at_
    exact absurd given (h.none_given stands k)
  kept k t given at_ := by
    obtain rfl : old.term = t := term.symm.trans at_
    exact absurd given (h.none_given stands k)
  counts standing := nomatch role.symm.trans standing

section

variable (h : Sound quorum s)
include h

/-- Replacing a node that is sound, at a later time, and has not changed a vote that matters. -/
theorem Sound.set (node : x.Sound s i) (advances : Advances (s.node i) x)
    (keeps : ∀ a, (i, a, x.term) ∈ s.granted → (a, x.term) ∈ s.led →
      (s.node i).term = x.term ∧ ((s.node i).vote = some a → x.vote = some a ∨ Settled s x.term)) :
    Sound quorum (s.set i x) := by
  have settled : ∀ term, Settled s term → Settled (s.set i x) term :=
    fun term settled => settled.of_advances (advances_set advances)
  refine ⟨fun j => ?_, fun j k l term one two => ?_, h.unique, fun a term leads => ?_⟩
  · have here := State.set_cases (motive := fun j y => y.Sound s j) node
      (fun j _ => h.nodes j) j
    exact here.of_history settled (fun _ _ given => given) (fun _ given => given) subset_rfl
      subset_rfl
  · exact (h.once j k l term one two).imp_right fun rest =>
      rest.imp_right fun rest => rest.imp_right (settled term)
  · by_cases done : Settled s term
    · exact .inl (settled term done)
    · refine .inr (((h.elected a term leads).resolve_left done).of_history
        (fun _ _ given => .inl given) subset_rfl ?_)
      refine State.set_cases (motive := fun j y => j ≠ a → (j, a, term) ∈ s.granted →
        y.term = term → ((s.node j).term = term → (s.node j).vote = some a) →
          y.vote = some a) ?_ fun j _ _ _ eq vote => vote eq
      rintro - given rfl vote
      obtain ⟨prev, kept⟩ := keeps a given leads
      exact (kept (vote prev)).resolve_right done

/-- A node in a new term. -/
theorem Sound.newer (newer : (s.node i).term < x.term) (own : x.role ≠ .follower → x.vote = some i)
    (notLeader : x.role ≠ .leader) (heeds : x.role = .follower → x.heeds = none)
    (counted : x.role = .candidate → x.counted ⊆ {i}) : Sound quorum (s.set i x) :=
  h.set ((h.nodes i).newer newer own notLeader heeds counted)
    ⟨newer.le, fun _ eq => absurd eq newer.ne'⟩
    fun a given _ => absurd ((h.nodes i).reached a _ given) newer.not_ge

theorem Sound.recount (role : x.role = (s.node i).role)
    (term : x.term = (s.node i).term) (vote : x.vote = (s.node i).vote)
    (heeds : x.heeds = (s.node i).heeds) (counted : x.role = .candidate → ∀ j ∈ x.counted,
      j ∈ (s.node i).counted ∨ (j, i, x.term) ∈ s.granted) : Sound quorum (s.set i x) := by
  have eq : x = { s.node i with counted := x.counted } := by
    cases x
    simp_all
  rw [eq] at counted ⊢
  refine h.set { h.nodes i with counts := fun standing j mem => ?_ }
    ⟨le_rfl, fun standing _ => standing⟩ fun _ _ _ => ⟨rfl, .inl⟩
  obtain prev | given := counted standing j mem
  · exact (h.nodes i).counts standing j prev
  · exact .inr given

theorem Sound.follow {leader : ν} (ne : leader ≠ i) (leads : (leader, (s.node i).term) ∈ s.led)
    (role : x.role = .follower) (term : x.term = (s.node i).term) (vote : x.vote = (s.node i).vote)
    (heeds : x.heeds = some leader) : Sound quorum (s.set i x) := by
  have old := h.nodes i
  refine h.set (old.following role term ?_ ?_ ?_) (.of_not_standing term (by simp [role]))
    fun a _ _ => ⟨term.symm, fun prev => .inl (vote.trans prev)⟩
  · intro heard eq
    rwa [← Option.some.inj (heeds.symm.trans eq)]
  · -- nobody else leads the term
    exact fun led => absurd (h.unique leader i _ leads led) ne
  · rw [vote]
    exact fun k given => old.kept k _ given rfl

/-- A vote that does no harm is forgotten. -/
theorem Sound.forget (harmless : MayForget s i)
    (role : x.role = .follower) (term : x.term = (s.node i).term) (heeds : x.heeds = none) :
    Sound quorum (s.set i x) := by
  have old := h.nodes i
  -- either the node stands, or its term is settled, or it has no vote
  have cases : (s.node i).vote = none ∨ (s.node i).role = .candidate ∨
      Settled s (s.node i).term := by
    by_cases stands : (s.node i).role = .candidate
    · exact .inr (.inl stands)
    obtain none | stands' | others := harmless
    · exact .inl none
    · exact absurd stands' stands
    · refine .inr (.inr fun j => ?_)
      by_cases eq : j = i
      · rw [eq]
        exact ⟨le_rfl, fun standing => absurd standing stands⟩
      · exact others j eq
  have settled : ∀ k holder, (i, k, (s.node i).term) ∈ s.granted →
      (s.node i).vote = some holder → Settled s (s.node i).term := by
    intro k holder given vote
    obtain none | stands | settled := cases
    · exact nomatch none.symm.trans vote
    · exact nomatch (old.follows k _ given rfl).symm.trans stands
    · exact settled
  refine h.set (old.following role term (by simp [heeds]) (fun led => ?_) fun k given => ?_)
    (.of_not_standing term (by simp [role])) ?_
  · obtain leads | settled := old.ledKept _ led rfl
    · obtain none | stands | settled := cases
      · exact nomatch none.symm.trans (old.own (by simp [leads]))
      · exact nomatch leads.symm.trans stands
      · exact settled
    · exact settled
  · obtain done | leads | ⟨holder, vote, -⟩ := old.kept k _ given rfl
    · exact .inl done
    · exact .inr (.inl leads)
    · exact .inl (settled k holder given vote)
  · rw [term]
    exact fun a given _ => ⟨rfl, fun vote => .inr (settled a a given vote)⟩

/-! ## Votes and victories -/

/-- The vote that a follower holds enters the history. -/
theorem Sound.insertGrant {cand : ν}
    (follows : (s.node i).role = .follower) (vote : (s.node i).vote = some cand) : Sound quorum
      { s with granted := insert (i, cand, (s.node i).term) s.granted } := by
  have old := h.nodes i
  -- the vote agrees with every earlier one in the term, unless that or this one is for a leader
  have clash : ∀ k, (i, k, (s.node i).term) ∈ s.granted →
      k = cand ∨ (k, (s.node i).term) ∈ s.led ∨ (cand, (s.node i).term) ∈ s.led ∨
        Settled s (s.node i).term := by
    intro k given
    obtain done | leads | ⟨holder, held, which⟩ := old.kept k _ given rfl
    · exact .inr (.inr (.inr done))
    · exact .inr (.inl leads)
    · obtain rfl := Option.some.inj (held.symm.trans vote)
      exact which.elim (fun eq => .inl eq.symm) fun leads => .inr (.inr (.inl leads))
  have split : ∀ {j k t}, (j, k, t) ∈ insert (i, cand, (s.node i).term) s.granted →
      (j = i ∧ k = cand ∧ t = (s.node i).term) ∨ (j, k, t) ∈ s.granted := by
    simp
  refine ⟨fun j => ?_, fun j k l t one two => ?_, h.unique, fun a t leads => ?_⟩
  · by_cases eq : j = i
    · subst eq
      refine { old with reached := ?_, follows := fun _ _ _ _ => follows, kept := ?_, counts := ?_ }
      · intro k t mem
        obtain ⟨-, -, rfl⟩ | before := split mem
        · exact le_rfl
        · exact old.reached k t before
      · intro k t mem at_
        obtain ⟨-, rfl, -⟩ | before := split mem
        · exact .inr (.inr ⟨k, vote, .inl rfl⟩)
        · exact old.kept k t before at_
      · exact fun standing => nomatch follows.symm.trans standing
    · refine (h.nodes j).of_history (fun _ done => done) (fun k t mem => ?_)
        (fun _ leads => leads) (Set.subset_insert _ _) subset_rfl
      exact (split mem).resolve_left fun new => eq new.1
  · obtain ⟨rfl, rfl, rfl⟩ | first := split one
    · obtain ⟨-, rfl, -⟩ | second := split two
      · exact .inl rfl
      · obtain eq | leads | leads | done := clash l second
        · exact .inl eq.symm
        · exact .inr (.inr (.inl leads))
        · exact .inr (.inl leads)
        · exact .inr (.inr (.inr done))
    · obtain ⟨rfl, rfl, rfl⟩ | second := split two
      · exact clash k first
      · exact h.once j k l t first second
  · by_cases done : Settled s t
    · exact .inl done
    · refine .inr (((h.elected a t leads).resolve_left done).of_history
        (fun j k mem => ?_) (Set.subset_insert _ _) fun _ _ _ at_ firm => firm at_)
      obtain ⟨rfl, rfl, rfl⟩ | before := split mem
      · refine .inr ⟨?_, fun _ _ firm => Option.some.inj (vote.symm.trans (firm rfl))⟩
        rintro rfl
        obtain leader | settled := old.ledKept _ leads rfl
        · exact nomatch follows.symm.trans leader
        · exact done settled
      · exact .inl before

/-- A vote is given. -/
theorem Sound.grant {cand : ν} (follows : (s.node i).role = .follower)
    (free : (s.node i).vote = none ∨ (s.node i).vote = some cand ∨ (s.node i).heeds = some cand)
    (role : x.role = .follower) (term : x.term = (s.node i).term)
    (vote : x.vote = some cand) (heeds : x.heeds = (s.node i).heeds) :
    Sound quorum { s.set i x with granted := insert (i, cand, x.term) s.granted } := by
  have old := h.nodes i
  have heeded := fun leader => old.heeded leader follows
  -- a vote is given again, or to the leader
  have again : ∀ holder, (s.node i).vote = some holder →
      holder = cand ∨ (cand, (s.node i).term) ∈ s.led := by
    intro holder held
    obtain none | eq | heard := free
    · exact nomatch none.symm.trans held
    · exact .inl (Option.some.inj (held.symm.trans eq))
    · exact .inr (heeded cand heard)
  have voted : Sound quorum (s.set i x) := by
    refine h.set (old.following role term (heeds ▸ heeded) ?_ fun k given => ?_)
      (.of_not_standing term (by simp [role])) ?_
    · exact fun leads => (old.ledKept _ leads rfl).resolve_left (by simp [follows])
    · obtain done | leads | ⟨holder, held, which⟩ := old.kept k _ given rfl
      · exact .inl done
      · exact .inr (.inl leads)
      · refine .inr (.inr ⟨cand, vote, ?_⟩)
        obtain rfl | leads := again holder held
        · exact which
        · exact .inr leads
    · rw [term]
      refine fun a _ leads => ⟨rfl, fun held => .inl (vote.trans (congrArg some ?_))⟩
      obtain eq | heard := again a held
      · exact eq.symm
      · exact h.unique cand a _ heard leads
  have self : (s.set i x).node i = x := State.set_self
  have given := voted.insertGrant (self.symm ▸ role) (self.symm ▸ vote)
  rwa [self] at given

variable [Fintype ν] (majority : Fintype.card ν < 2 * quorum)
  (stands : (s.node i).role = .candidate) {voters : Finset ν} (enough : quorum ≤ voters.card)
  (voted : ∀ j ∈ voters, j = i ∨ (j, i, (s.node i).term) ∈ s.granted)
include majority stands enough voted

/-- Nobody else has led the term in which a candidate has enough votes: the voters of the two
would have one in common. -/
theorem Sound.not_led (a : ν) : (a, (s.node i).term) ∉ s.led := by
  intro leads
  have old := h.nodes i
  have open' : ¬Settled s (s.node i).term := fun settled => (settled i).2 stands rfl
  have ne : a ≠ i := by
    rintro rfl
    obtain leader | done := old.ledKept _ leads rfl
    · rw [stands] at leader
      cases leader
    · exact open' done
  obtain ⟨noneGiven, voters', enough', firm⟩ := (h.elected a _ leads).resolve_left open'
  have disjoint : Disjoint voters voters' := by
    refine Finset.disjoint_left.mpr fun j one two => ?_
    by_cases eq : j = i
    · subst eq
      have follower := old.follows a _ (firm j two ne.symm).1 rfl
      rw [stands] at follower
      cases follower
    · have given := (voted j one).resolve_left eq
      by_cases leader : j = a
      · exact noneGiven i (leader ▸ given)
      · exact ne ((firm j two leader).2.1 i given).symm
  have both := Finset.card_le_univ (voters ∪ voters')
  rw [Finset.card_union_of_disjoint disjoint] at both
  omega

/-- The voters of a candidate with enough votes elect it. -/
theorem Sound.elected_of_votes : Elected quorum s i (s.node i).term := by
  have notLed := h.not_led majority stands enough voted
  have open' : ¬Settled s (s.node i).term := fun settled => (settled i).2 stands rfl
  refine ⟨(h.nodes i).none_given stands, voters, enough, fun j mem other => ?_⟩
  have given := (voted j mem).resolve_left other
  refine ⟨given, fun k also => ?_, fun at_ => ?_⟩
  · obtain eq | leads | leads | done := h.once j k i _ also given
    · exact eq
    · exact absurd leads (notLed k)
    · exact absurd leads (notLed i)
    · exact absurd done open'
  · obtain done | leads | ⟨holder, held, eq | leads⟩ := (h.nodes j).kept i _ given at_
    · exact absurd done open'
    · exact absurd leads (notLed i)
    · rw [held, eq]
    · exact absurd leads (notLed holder)

/-- A candidate wins its term. -/
theorem Sound.win (role : x.role = .leader) (term : x.term = (s.node i).term)
    (vote : x.vote = (s.node i).vote) :
    Sound quorum { s.set i x with led := insert (i, x.term) s.led } := by
  have notLed := h.not_led majority stands enough voted
  have elected := h.elected_of_votes majority stands enough voted
  have leading := (h.nodes i).leading stands role term vote
  have advances : Advances (s.node i) x := .of_not_standing term (by simp [role])
  set s' : State ν := { s.set i x with led := insert (i, x.term) s.led }
  have settled : ∀ t, Settled s t → Settled s' t := fun t settled =>
    settled.of_advances (advances_set advances)
  have more : s.led ⊆ s'.led := Set.subset_insert _ _
  have leads' : ∀ a t, (a, t) ∈ s'.led → (a = i ∧ t = (s.node i).term) ∨ (a, t) ∈ s.led := by
    intro a t mem
    obtain new | before := mem
    · exact .inl (by simpa [term] using new)
    · exact .inr before
  -- nobody changes a vote, so that whoever was elected stays elected
  have stays : ∀ a t, Elected quorum s a t → Elected quorum s' a t := fun a t elected => by
    refine elected.of_history (fun _ _ given => .inl given) subset_rfl ?_
    refine State.set_cases (motive := fun j y => j ≠ a → (j, a, t) ∈ s.granted → y.term = t →
      ((s.node j).term = t → (s.node j).vote = some a) → y.vote = some a) ?_
        fun _ _ _ _ at_ firm => firm at_
    exact fun _ _ at_ firm => vote.trans (firm (term ▸ at_))
  refine ⟨State.set_cases (motive := fun j y => y.Sound s' j) leading fun j other => ?_,
    fun j k l t one two => ?_, fun a b t one two => ?_, fun a t leads => ?_⟩
  · refine (h.nodes j).of_history settled (fun _ _ given => given) (fun t mem => ?_)
      subset_rfl more
    exact (leads' j t mem).resolve_left fun new => other new.1
  · exact (h.once j k l t one two).imp_right fun rest =>
      rest.imp (fun leads => more leads) fun rest => rest.imp (fun leads => more leads) (settled t)
  · obtain ⟨rfl, rfl⟩ | first := leads' a t one
    · obtain ⟨rfl, -⟩ | second := leads' b _ two
      · rfl
      · exact absurd second (notLed b)
    · obtain ⟨rfl, rfl⟩ | second := leads' b t two
      · exact absurd first (notLed a)
      · exact h.unique a b t first second
  · obtain ⟨rfl, rfl⟩ | leads := leads' a t leads
    · exact .inr (stays a _ elected)
    · exact (h.elected a t leads).imp (settled t) (stays a t)

end

end OneNode

end Ballot
