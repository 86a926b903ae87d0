/-
Module: LeilFS.Chunks.Assignment
Purpose: The optimizer of assignments, an auction that ends with the best assignment, and the two
  places where goals are compared by it.
Trusted boundary: none
-/
import LeilFS.Chunks.Calculator

namespace LeilFS.Chunks

open List

/-!
Persons bid for objects, one after the other, each for the one that is worth most to it at the
present prices.  Every bid raises a price, and an object that was bid for once is never free
again, so that prices are bounded as long as some object is free.  Nobody who has an object would
gain more than `eps` with another one, so that no assignment is better than the last one by more
than `eps` for each person; the values are scaled for this to mean that none is better.  The numbers
are integers without a bound here.
-/

/-- Who has what, and the prices [SPEC linear_assignment_optimizer.h:35-84]. -/
structure Auction (n : ℕ) where
  assignment : Fin n → Option (Fin n)
  objectAssignment : Fin n → Option (Fin n)
  prices : Fin n → ℤ
  unassignedIdx : Fin n
  assignedCount : ℕ

/-- The highest value so far, the second highest, and the object with the highest one. In the place
of nothing there is the lowest number of the type. -/
structure Offer (n : ℕ) where
  second : Option ℤ := none
  best : Option ℤ := none
  object : Option (Fin n) := none

/-- [SPEC linear_assignment_optimizer.h:59-69] -/
def Offer.consider {n : ℕ} (worth : Fin n → ℤ) (offer : Offer n) (i : Fin n) : Offer n :=
  if offer.best.all (· < worth i) then ⟨offer.best, some (worth i), some i⟩
  else { offer with second := some (offer.second.elim (worth i) (max (worth i))) }

namespace Auction

variable {n : ℕ} (values : Fin n → Fin n → ℤ) (eps : ℤ)

/-- The next person without an object, around the circle. -/
def nextUnassigned (a : Auction n) : Option (Fin n) :=
  ((finRange n).map (a.unassignedIdx + ·)).find? fun person => a.assignment person = none

/-- What the person is offered at the present prices. -/
def offer (a : Auction n) (person : Fin n) : Offer n :=
  (finRange n).foldl (Offer.consider fun i => values person i - a.prices i) {}

/-- The person gets the object, which its owner loses
[SPEC linear_assignment_optimizer.h:72-82]. -/
def assign (a : Auction n) (person object : Fin n) (price : ℤ) : Auction n where
  assignment :=
    Function.update ((a.objectAssignment object).elim a.assignment fun owner =>
      Function.update a.assignment owner none) person (some object)
  objectAssignment := Function.update a.objectAssignment object (some person)
  prices := Function.update a.prices object price
  unassignedIdx := person
  assignedCount := a.assignedCount + if (a.objectAssignment object).isSome then 0 else 1

/-- One pass of the loop [SPEC linear_assignment_optimizer.h:46-83]. -/
def bid (a : Auction n) : Auction n :=
  match a.nextUnassigned with
  | none => a
  | some person =>
      let offer := a.offer values person
      match offer.object with
      | none => a
      | some object =>
          a.assign person object
            (a.prices object + (offer.best.getD 0 - offer.second.getD 0 + eps))

/-- The loop, which ends if there is enough fuel [SPEC linear_assignment_optimizer.h:45-83]. -/
def loop : ℕ → Auction n → Option (Auction n)
  | 0, _ => none
  | fuel + 1, a => if a.assignedCount < n then loop fuel (a.bid values eps) else some a

/-! ### What holds between bids -/

/-- The two assignments are inverse to each other, the persons with an object are counted, and an
object that nobody has bid for has its first price. -/
structure Consistent (first : Fin n → ℤ) (a : Auction n) : Prop where
  matched : ∀ person object,
    a.assignment person = some object ↔ a.objectAssignment object = some person
  counted : a.assignedCount = (Finset.univ.filter fun person => a.assignment person ≠ none).card
  untouched : ∀ object, a.objectAssignment object = none → a.prices object = first object

/-- Nobody who has an object would gain more than `eps` with another one, at the present prices. -/
def Slack (a : Auction n) : Prop :=
  ∀ person object, a.assignment person = some object → ∀ other,
    values person other - a.prices other ≤ values person object - a.prices object + eps

variable {values eps} {first : Fin n → ℤ} {a : Auction n}

/-- What is found among some objects: the best of them, and the value of the second best. -/
theorem foldl_consider (worth : Fin n → ℤ) (objects : List (Fin n)) (some : objects ≠ []) :
    ∃ object, (objects.foldl (Offer.consider worth) {}).object = Option.some object ∧
      (objects.foldl (Offer.consider worth) {}).best = Option.some (worth object) ∧
      (∀ w ∈ (objects.foldl (Offer.consider worth) {}).second, w ≤ worth object) ∧
      ∀ other ∈ objects, other ≠ object →
        ∃ w ∈ (objects.foldl (Offer.consider worth) {}).second, worth other ≤ w := by
  induction objects using reverseRecOn with
  | nil => exact absurd rfl some
  | append_singleton objects last ih =>
    rw [foldl_append, foldl_cons, foldl_nil]
    by_cases empty : objects = []
    · subst empty
      simp [Offer.consider]
    have spec := ih empty
    clear ih
    generalize objects.foldl (Offer.consider worth) {} = offer at spec
    obtain ⟨object, isBest, best, second, others⟩ := spec
    unfold Offer.consider
    rw [best]
    split
    next more =>
      have more : worth object < worth last := by simpa using more
      refine ⟨last, rfl, rfl, ?_, fun other mem ne => ⟨worth object, rfl, ?_⟩⟩
      · rintro _ ⟨⟩
        exact more.le
      · by_cases eq : other = object
        · rw [eq]
        · have old := (mem_append.mp mem).resolve_right fun new => ne (mem_singleton.mp new)
          obtain ⟨w, isSecond, le⟩ := others other old eq
          exact le.trans (second w isSecond)
    next less =>
      have less : worth last ≤ worth object := by simpa using less
      refine ⟨object, isBest, rfl, ?_, fun other mem ne => ⟨_, rfl, ?_⟩⟩
      · rintro _ ⟨⟩
        cases found : offer.second with
        | none => exact less
        | some w => exact max_le less (second w found)
      · obtain old | new := mem_append.mp mem
        · obtain ⟨w, isSecond, le⟩ := others other old ne
          rw [isSecond]
          exact le.trans (le_max_right _ _)
        · rw [mem_singleton.mp new]
          cases offer.second with
          | none => exact le_rfl
          | some w => exact le_max_left _ _

/-- What a person is offered among several objects. -/
theorem offer_spec (values : Fin n → Fin n → ℤ) (several : 1 < n) (a : Auction n)
    (person : Fin n) :
    ∃ object w, (a.offer values person).object = some object ∧
      (a.offer values person).best = some (values person object - a.prices object) ∧
      (a.offer values person).second = some w ∧ w ≤ values person object - a.prices object ∧
      ∀ other ≠ object, values person other - a.prices other ≤ w := by
  have length : (finRange n).length = n := length_finRange
  obtain ⟨object, isBest, best, second, others⟩ := foldl_consider
    (fun i => values person i - a.prices i) (finRange n) (ne_nil_of_length_pos (by omega))
  have : Nontrivial (Fin n) := Fin.nontrivial_iff_two_le.mpr several
  obtain ⟨other, ne⟩ := exists_ne object
  obtain ⟨w, isSecond, -⟩ := others other (mem_finRange other) ne
  refine ⟨object, w, isBest, best, isSecond, second w isSecond, fun other ne => ?_⟩
  obtain ⟨w', isSecond', le⟩ := others other (mem_finRange other) ne
  rwa [Option.mem_unique isSecond' isSecond] at le

/-- As long as not everybody is counted, the search around the circle finds a person. -/
theorem nextUnassigned_spec (consistent : a.Consistent first) (open' : a.assignedCount < n) :
    ∃ person, a.nextUnassigned = some person ∧ a.assignment person = none := by
  have : NeZero n := ⟨by omega⟩
  obtain ⟨free, isFree⟩ : ∃ person, a.assignment person = none := by
    by_contra none
    push Not at none
    rw [consistent.counted, Finset.filter_true_of_mem fun person _ => none person,
      Finset.card_univ, Fintype.card_fin] at open'
    exact lt_irrefl n open'
  have there : (a.nextUnassigned).isSome := by
    rw [nextUnassigned, find?_isSome]
    exact ⟨free, mem_map.mpr ⟨free - a.unassignedIdx, mem_finRange _, by abel⟩,
      decide_eq_true isFree⟩
  obtain ⟨person, found⟩ := Option.isSome_iff_exists.mp there
  have unassigned := find?_some found
  exact ⟨person, found, of_decide_eq_true unassigned⟩

/-- While a person is without an object, an object is free. -/
theorem Consistent.exists_free (consistent : a.Consistent first) {person : Fin n}
    (unassigned : a.assignment person = none) : ∃ object, a.objectAssignment object = none := by
  by_contra none
  push Not at none
  choose owner owns using fun object => Option.ne_none_iff_exists'.mp (none object)
  have injective : Function.Injective owner := fun one two same => by
    have first := (consistent.matched _ _).mpr (owns one)
    have second := (consistent.matched _ _).mpr (owns two)
    rw [same, second] at first
    exact (Option.some.inj first).symm
  obtain ⟨object, rfl⟩ := Finite.injective_iff_surjective.mp injective person
  rw [(consistent.matched _ _).mpr (owns object)] at unassigned
  cases unassigned

/-- An object that changes hands leaves the assignments inverse to each other. -/
theorem Consistent.assign (consistent : a.Consistent first) {person : Fin n}
    (unassigned : a.assignment person = none) (object : Fin n) (price : ℤ) :
    (a.assign person object price).Consistent first := by
  have matched := consistent.matched
  have owns : ∀ owner, a.objectAssignment object = some owner → a.assignment owner = some object :=
    fun owner => (matched owner object).mpr
  refine ⟨fun p o => ?_, ?_, fun o free => ?_⟩
  · cases owned : a.objectAssignment object <;>
      simp only [Auction.assign, owned, Option.elim, Function.update_apply] <;> grind
  · cases owned : a.objectAssignment object with
    | none =>
      have more : (Finset.univ.filter fun p =>
            (a.assign person object price).assignment p ≠ none) =
          insert person (Finset.univ.filter fun p => a.assignment p ≠ none) := by
        ext p
        simp only [Auction.assign, owned, Option.elim, Function.update_apply, Finset.mem_filter,
          Finset.mem_univ, true_and, Finset.mem_insert]
        grind
      rw [more, Finset.card_insert_of_notMem (by simp [unassigned]), ← consistent.counted]
      simp [Auction.assign, owned]
    | some owner =>
      -- the owner loses its object, so the count stays
      have had := owns owner owned
      have ne : owner ≠ person := fun eq => by rw [← eq, had] at unassigned; cases unassigned
      have moved : (Finset.univ.filter fun p =>
            (a.assign person object price).assignment p ≠ none) =
          insert person ((Finset.univ.filter fun p => a.assignment p ≠ none).erase owner) := by
        ext p
        simp only [Auction.assign, owned, Option.elim, Function.update_apply, Finset.mem_filter,
          Finset.mem_univ, true_and, Finset.mem_insert, Finset.mem_erase]
        grind
      have counted : owner ∈ Finset.univ.filter fun p => a.assignment p ≠ none := by simp [had]
      rw [moved, Finset.card_insert_of_notMem (by simp [unassigned]),
        Finset.card_erase_add_one counted, ← consistent.counted]
      simp [Auction.assign, owned]
  · simp only [Auction.assign, Function.update_apply] at free ⊢
    grind [consistent.untouched]

/-- What is left until the prices are all above a bound. -/
def room (bound : ℤ) (prices : Fin n → ℤ) : ℕ := ∑ object, (bound + 1 - prices object).toNat

/-- A bid: the object is worth most to the person, and the price is raised by what it is worth more
than the others, and `eps`. -/
theorem Consistent.exists_bid (consistent : a.Consistent first) (several : 1 < n)
    (open' : a.assignedCount < n) (values : Fin n → Fin n → ℤ) (eps : ℤ) :
    ∃ person object w, a.assignment person = none ∧
      a.bid values eps = a.assign person object
        (a.prices object + (values person object - a.prices object - w + eps)) ∧
      w ≤ values person object - a.prices object ∧
      ∀ other ≠ object, values person other - a.prices other ≤ w := by
  obtain ⟨person, next, unassigned⟩ := nextUnassigned_spec consistent open'
  obtain ⟨object, w, isBest, best, second, le, others⟩ := offer_spec values several a person
  refine ⟨person, object, w, unassigned, ?_, le, others⟩
  rw [Auction.bid, next]
  dsimp only
  rw [isBest, best, second]
  rfl

/-- A bid is for an object whose price is not above the bound, and raises it. -/
theorem Consistent.bid (consistent : a.Consistent first) (several : 1 < n) (pos : 0 < eps)
    (open' : a.assignedCount < n) {bound : ℤ}
    (bounded : ∀ person object free,
      values person object - values person free + first free ≤ bound) :
    (a.bid values eps).Consistent first ∧
      room bound (a.bid values eps).prices < room bound a.prices := by
  obtain ⟨person, object, w, unassigned, bids, le, others⟩ :=
    consistent.exists_bid several open' values eps
  rw [bids]
  refine ⟨consistent.assign unassigned object _, ?_⟩
  obtain ⟨free, isFree⟩ := consistent.exists_free unassigned
  have price := consistent.untouched free isFree
  have within := bounded person object free
  have low : a.prices object ≤ bound := by
    by_cases eq : free = object
    · subst eq
      omega
    · have least := others free eq
      omega
  refine Finset.sum_lt_sum (fun other _ => ?_) ⟨object, Finset.mem_univ _, ?_⟩
  · by_cases eq : other = object
    · subst eq
      simp only [Auction.assign, Function.update_self]
      omega
    · simp only [Auction.assign, Function.update_of_ne eq, le_refl]
  · simp only [Auction.assign, Function.update_self]
    omega

/-- The person who bids would gain no more than `eps` elsewhere, and the others only see a price
that has risen. -/
theorem Slack.bid (slack : a.Slack values eps) (consistent : a.Consistent first) (several : 1 < n)
    (pos : 0 < eps) (open' : a.assignedCount < n) : (a.bid values eps).Slack values eps := by
  obtain ⟨person, object, w, unassigned, bids, le, others⟩ :=
    consistent.exists_bid several open' values eps
  rw [bids]
  intro p o has other
  by_cases eq : p = person
  · subst eq
    obtain rfl : object = o := by simpa [Auction.assign] using has
    by_cases same : other = object
    · subst same
      omega
    · have less := others other same
      simp only [Auction.assign, Function.update_self, Function.update_of_ne same]
      omega
  · -- who has lost the object is not asked, and nobody else had it
    have kept : a.assignment p = some o ∧ o ≠ object := by
      have matched := consistent.matched p
      simp only [Auction.assign, Function.update_of_ne eq] at has
      cases owned : a.objectAssignment object with
      | none =>
        rw [owned] at has
        refine ⟨has, fun same => ?_⟩
        rw [← same, (matched o).mp has] at owned
        cases owned
      | some owner =>
        simp only [owned, Option.elim] at has
        by_cases lost : p = owner
        · rw [lost, Function.update_self] at has
          cases has
        · rw [Function.update_of_ne lost] at has
          refine ⟨has, fun same => lost ?_⟩
          rw [← same, (matched o).mp has] at owned
          exact Option.some.inj owned
    have before := slack p o kept.1 other
    simp only [Auction.assign, Function.update_of_ne kept.2]
    by_cases same : other = object
    · subst same
      rw [Function.update_self]
      omega
    · rwa [Function.update_of_ne same]

/-- The loop comes to its end before the room is used up. -/
theorem Consistent.loop (consistent : a.Consistent first) (slack : a.Slack values eps)
    (several : 1 < n) (pos : 0 < eps) {bound : ℤ} (bounded : ∀ person object free,
      values person object - values person free + first free ≤ bound)
    {fuel : ℕ} (enough : room bound a.prices < fuel) :
    ∃ last, Auction.loop values eps fuel a = some last ∧ last.Consistent first ∧
      last.Slack values eps ∧ ¬ last.assignedCount < n := by
  induction fuel generalizing a with
  | zero => exact absurd enough (Nat.not_lt_zero _)
  | succ fuel ih =>
    rw [Auction.loop]
    split
    next open' =>
      obtain ⟨kept, less⟩ := consistent.bid several pos open' bounded
      exact ih kept (slack.bid consistent several pos open')
        (less.trans_le (Nat.le_of_lt_succ enough))
    next closed => exact ⟨a, rfl, consistent, slack, closed⟩

/-- When everybody has an object, the assignments are a permutation and its inverse. -/
theorem Consistent.exists_perm (consistent : a.Consistent first) (closed : ¬ a.assignedCount < n) :
    ∃ σ : Equiv.Perm (Fin n), (∀ person, a.assignment person = some (σ person)) ∧
      ∀ object, a.objectAssignment object = some (σ.symm object) := by
  have all : ∀ person, a.assignment person ≠ none := by
    intro person none
    refine closed ?_
    have fewer := Finset.card_lt_univ_of_notMem (x := person)
      (s := Finset.univ.filter fun person => a.assignment person ≠ Option.none) (by simp [none])
    rwa [Fintype.card_fin, ← consistent.counted] at fewer
  choose object has using fun person => Option.ne_none_iff_exists'.mp (all person)
  have injective : Function.Injective object := fun one two same => by
    have first := (consistent.matched _ _).mp (has one)
    rw [same, (consistent.matched _ _).mp (has two)] at first
    exact (Option.some.inj first).symm
  refine ⟨Equiv.ofBijective object (Finite.injective_iff_bijective.mp injective), has, ?_⟩
  intro o
  refine (consistent.matched _ _).mp ?_
  rw [has]
  exact congrArg some (Equiv.ofBijective_apply_symm_apply object _ o)

/-- No other permutation is better by more than `eps` for each person. -/
theorem Slack.sum_le (slack : a.Slack values eps) {σ : Equiv.Perm (Fin n)}
    (has : ∀ person, a.assignment person = some (σ person)) (τ : Equiv.Perm (Fin n)) :
    ∑ person, values person (τ person) ≤ ∑ person, values person (σ person) + n * eps := by
  have each : ∑ person, (values person (τ person) - a.prices (τ person)) ≤
      ∑ person, (values person (σ person) - a.prices (σ person) + eps) :=
    Finset.sum_le_sum fun person _ => slack person (σ person) (has person) (τ person)
  -- the prices are paid for all objects by either
  rw [Finset.sum_add_distrib, Finset.sum_sub_distrib, Finset.sum_sub_distrib,
    Equiv.sum_comp τ a.prices, Equiv.sum_comp σ a.prices, Finset.sum_const, Finset.card_univ,
    Fintype.card_fin, nsmul_eq_mul] at each
  omega

/-! ### The auction as a whole -/

/-- The sums of all values and of all prices, without their signs. -/
def volume (values : Fin n → Fin n → ℤ) (prices : Fin n → ℤ) : ℕ :=
  (∑ person, ∑ object, (values person object).natAbs) + ∑ object, (prices object).natAbs

theorem natAbs_values_le (values : Fin n → Fin n → ℤ) (prices : Fin n → ℤ) (person object : Fin n) :
    (values person object).natAbs + (prices object).natAbs ≤ volume values prices := by
  have price := Finset.single_le_sum (f := fun object => (prices object).natAbs)
    (fun _ _ => Nat.zero_le _) (Finset.mem_univ object)
  have value := Finset.single_le_sum (f := fun object => (values person object).natAbs)
    (fun _ _ => Nat.zero_le _) (Finset.mem_univ object)
  have row := Finset.single_le_sum (f := fun person => ∑ object, (values person object).natAbs)
    (fun _ _ => Nat.zero_le _) (Finset.mem_univ person)
  exact add_le_add (value.trans row) price

/-- How many bids are needed at most. -/
theorem room_le (values : Fin n → Fin n → ℤ) (prices : Fin n → ℤ) :
    room (2 * volume values prices) prices ≤ n * (3 * volume values prices + 1) := by
  have each : ∀ object ∈ Finset.univ, ((2 * volume values prices : ℤ) + 1 - prices object).toNat ≤
      3 * volume values prices + 1 := by
    intro object _
    have le := natAbs_values_le values prices object object
    omega
  have sum := Finset.sum_le_card_nsmul Finset.univ _ _ each
  rwa [Finset.card_univ, Fintype.card_fin, smul_eq_mul] at sum

/-- [SPEC linear_assignment_optimizer.h:35-84] As many passes are made as can be needed. -/
def auctionStep [NeZero n] (values : Fin n → Fin n → ℤ) (eps : ℤ) (prices : Fin n → ℤ) :
    Option (Auction n) :=
  loop values eps (n * (3 * volume values prices + 1) + 1)
    ⟨fun _ => none, fun _ => none, prices, 0, 0⟩

/-- A step ends, with an object for everybody, and within `eps` for each person of the best. -/
theorem auctionStep_spec [NeZero n] (several : 1 < n) (values : Fin n → Fin n → ℤ) (pos : 0 < eps)
    (prices : Fin n → ℤ) :
    ∃ last, auctionStep values eps prices = some last ∧
      ∃ σ : Equiv.Perm (Fin n), (∀ person, last.assignment person = some (σ person)) ∧
        (∀ object, last.objectAssignment object = some (σ.symm object)) ∧
        ∀ τ : Equiv.Perm (Fin n),
          ∑ person, values person (τ person) ≤ ∑ person, values person (σ person) + n * eps := by
  have start : Consistent prices (⟨fun _ => none, fun _ => none, prices, 0, 0⟩ : Auction n) :=
    ⟨by simp, by simp, fun _ _ => rfl⟩
  have bounded : ∀ person object free, values person object - values person free + prices free ≤
      (2 * volume values prices : ℤ) := by
    intro person object free
    have one := natAbs_values_le values prices person object
    have two := natAbs_values_le values prices person free
    omega
  obtain ⟨last, ended, consistent, slack, closed⟩ :=
    start.loop (fun _ _ has => absurd has.symm (Option.some_ne_none _)) several pos bounded
      (Nat.lt_succ_of_le (room_le values prices))
  obtain ⟨σ, has, inverse⟩ := consistent.exists_perm closed
  exact ⟨last, ended, σ, has, inverse, slack.sum_le has⟩

/-- The steps with a large `eps`, of which the prices are kept
[SPEC linear_assignment_optimizer.h:130-133]. -/
def scaledPrices [NeZero n] (values : Fin n → Fin n → ℤ) (eps : ℤ) (prices : Fin n → ℤ) :
    Option (Fin n → ℤ) :=
  if 1 < eps then
    (auctionStep values eps prices).bind fun a => scaledPrices values ((eps + 2) / 5) a.prices
  else some prices
termination_by eps.toNat
decreasing_by omega

/-- The steps before the last one all end. -/
theorem exists_scaledPrices [NeZero n] (several : 1 < n) (values : Fin n → Fin n → ℤ) (eps : ℤ)
    (prices : Fin n → ℤ) : ∃ last, scaledPrices values eps prices = some last := by
  rw [scaledPrices]
  split
  next large =>
    obtain ⟨a, ended, -⟩ := auctionStep_spec several values (by omega : 0 < eps) prices
    rw [ended, Option.bind_some]
    exact exists_scaledPrices several values _ _
  · exact ⟨prices, rfl⟩
termination_by eps.toNat
decreasing_by omega

end Auction

/-- Who gets which object, and which object goes to whom; none if an auction does not end
[SPEC linear_assignment_optimizer.h:105-137]. `int` has no number below the one that the search for
the highest value starts with. -/
def auctionOptimization : {size : ℕ} → (Fin size → Fin size → ℤ) →
    Option ((Fin size → Option (Fin size)) × (Fin size → Option (Fin size)))
  | 0, _ => some (fun _ => none, fun _ => none)
  | 1, _ => some (fun _ => some 0, fun _ => some 0)
  | size + 2, values =>
      let values person object := values person object * (size + 3)
      let maxA := ((finRange (size + 2)).flatMap fun person => (finRange (size + 2)).map
        (values person)).foldl max (-2 ^ 31)
      (Auction.scaledPrices values ((maxA + 12) / 25) fun _ => 0).bind fun prices =>
        (Auction.auctionStep values 1 prices).map fun a => (a.assignment, a.objectAssignment)

/-- The optimizer ends with a permutation and its inverse.  The values are taken as many times as
there are persons and once more, and no permutation is better by more than one for each person. -/
theorem auctionOptimization_spec {size : ℕ} (values : Fin size → Fin size → ℤ) :
    ∃ σ : Equiv.Perm (Fin size),
      auctionOptimization values = some (fun person => some (σ person),
        fun object => some (σ.symm object)) ∧
      ∀ τ : Equiv.Perm (Fin size), (∑ person, values person (τ person)) * (size + 1) ≤
        (∑ person, values person (σ person)) * (size + 1) + size := by
  match size with
  | 0 => exact ⟨1, congrArg some (Prod.ext (funext fun i => i.elim0) (funext fun i => i.elim0)),
      fun τ => by simp⟩
  | 1 => exact ⟨1, congrArg some (Prod.ext (funext fun i => congrArg some (Subsingleton.elim _ _))
      (funext fun i => congrArg some (Subsingleton.elim _ _))),
      fun τ => by rw [Subsingleton.elim τ 1]; omega⟩
  | size + 2 =>
    have several : 1 < size + 2 := Nat.succ_lt_succ (Nat.succ_pos size)
    obtain ⟨prices, scaled⟩ := Auction.exists_scaledPrices several
      (fun person object => values person object * (size + 3)) _ fun _ => 0
    obtain ⟨last, ended, σ, has, inverse, best⟩ := Auction.auctionStep_spec several
      (fun person object => values person object * (size + 3)) Int.one_pos prices
    refine ⟨σ, ?_, fun τ => ?_⟩
    · rw [auctionOptimization]
      dsimp only
      rw [scaled, Option.bind_some, ended, Option.map_some, funext has, funext inverse]
    · have le := best τ
      rw [← Finset.sum_mul, ← Finset.sum_mul] at le
      push_cast at le ⊢
      linarith

/-- The optimizer ends, its two answers are a permutation and the inverse of it, and the value of
this permutation is the highest. -/
theorem auctionOptimization_optimal {size : ℕ} (values : Fin size → Fin size → ℤ) :
    ∃ σ : Equiv.Perm (Fin size),
      auctionOptimization values = some (fun person => some (σ person),
        fun object => some (σ.symm object)) ∧
      ∀ τ : Equiv.Perm (Fin size),
        ∑ person, values person (τ person) ≤ ∑ person, values person (σ person) := by
  obtain ⟨σ, found, near⟩ := auctionOptimization_spec values
  refine ⟨σ, found, fun τ => ?_⟩
  -- a better one would be better by at least `size + 1`
  have le := near τ
  by_contra better
  push Not at better
  nlinarith

/-! ## Parts of slices -/

/-- [SPEC goal.cc:161-182] -/
def Labels.labelsDistance : Labels → Labels → ℕ
  | [], second => second.countLabels
  | (label, count) :: first, second =>
      let skipped := Labels.countLabels (second.takeWhile (·.1 < label))
      match second.dropWhile (·.1 < label) with
      | [] => skipped + count.toNat + labelsDistance first []
      | (other, otherCount) :: second =>
          if label < other then
            skipped + count.toNat + labelsDistance first ((other, otherCount) :: second)
          else skipped + ((count.toNat : ℤ) - otherCount.toNat).natAbs + labelsDistance first second

namespace LabelledSlice

def kMaxExpectedCopies : ℕ := 128

/-- The answer of the optimizer for the parts of a slice. -/
def assigned (cost : ℕ → ℕ → ℤ) (slice : LabelledSlice) (part : ℕ) : ℕ :=
  if inside : part < slice.parts.length then
    (auctionOptimization fun i j : Fin slice.parts.length => cost i j).elim 0 fun found =>
      (found.1 ⟨part, inside⟩).elim 0 (·.val)
  else 0

/-- How goals are merged [SPEC goal.cc:66-82]. -/
def mergeAssignment (slice other : LabelledSlice) : ℕ → ℕ :=
  slice.assigned fun i j =>
    let part := slice.parts.getD i []
    10 * kMaxExpectedCopies -
      part.labelsDistance (Labels.makeLabelsUnion part (other.parts.getD j []))

/-- How the parts of the target are compared with what there is
[SPEC chunk_copies_calculator.cc:118-140]. -/
def optimizeAssignment (target available : LabelledSlice) : ℕ → ℕ :=
  target.assigned fun src dst =>
    let maxSliceOp := 10 * kMaxExpectedCopies
    let count := Labels.operationCount (available.parts.getD src []) (target.parts.getD dst [])
    maxSliceOp * maxSliceOp -
      (maxSliceOp * min count.1 (maxSliceOp - 1) + min count.2 (maxSliceOp - 1) : ℕ)

/-- Every part of the slice gets one of its parts. -/
theorem assigned_lt (cost : ℕ → ℕ → ℤ) (slice : LabelledSlice) {part : ℕ}
    (inside : part < slice.parts.length) : slice.assigned cost part < slice.parts.length := by
  obtain ⟨σ, found, -⟩ := auctionOptimization_spec fun i j : Fin slice.parts.length => cost i j
  rw [assigned, dif_pos inside, found]
  exact (σ ⟨part, inside⟩).isLt

end LabelledSlice

end LeilFS.Chunks
