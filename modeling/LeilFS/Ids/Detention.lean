/-
Module: LeilFS.Ids.Detention
Purpose: A pool with detention under any sequence of calls.
Trusted boundary: none
-/
import LeilFS.Ids.Detainer
import LeilFS.Ids.Allocator

namespace LeilFS.Ids

open DetainSignal List IdPoolDetainer

/-!
The history of a pool with detention is the pool together with what its callers and
an observer of its signals know: the ids that callers hold, the set that an observer
keeps, the latest time stamp of any call, and the time at which each id was last put
into detention.  That time is forgotten when the id is handed out or marked, and when
it has been forced out of a detention that was full.
-/

/-- The observer's set after a signal. -/
def DetainSignal.observe (observed : Finset Nat) : DetainSignal → Finset Nat
  | .added id _ => insert id observed
  | .removed id => observed.erase id

/-- The calls that change a pool with detention. -/
inductive DetainerCall where
  | acquire (choice ts : Nat)
  | release (id ts : Nat)
  | detain (id ts : Nat) (overcrowd : Bool)
  | markAsAcquired (id ts : Nat)
  | releaseDetained (ts : Nat) (maxCount : Int)
deriving Repr, DecidableEq

/-- The ids that a call names are from one to a bound. -/
def DetainerCall.InRange (maxId : Nat) : DetainerCall → Prop
  | .release id _ => 1 ≤ id ∧ id ≤ maxId
  | .detain id _ _ => 1 ≤ id ∧ id ≤ maxId
  | .markAsAcquired id _ => 1 ≤ id ∧ id ≤ maxId
  | _ => True

instance decidableInRange (maxId : Nat) :
    (call : DetainerCall) → Decidable (call.InRange maxId)
  | .acquire _ _ => isTrue trivial
  | .release id _ => inferInstanceAs (Decidable (1 ≤ id ∧ id ≤ maxId))
  | .detain id _ _ => inferInstanceAs (Decidable (1 ≤ id ∧ id ≤ maxId))
  | .markAsAcquired id _ => inferInstanceAs (Decidable (1 ≤ id ∧ id ≤ maxId))
  | .releaseDetained _ _ => isTrue trivial

/-- A pool and what is known about it from outside. -/
structure DetainerHistory where
  detainer : IdPoolDetainer
  held : Finset Nat
  observed : Finset Nat
  since : Nat → Option Nat
  now : Nat

namespace DetainerHistory

/-- An id was handed out: since when it has been detained does not matter any more. -/
def forget (since : Nat → Option Nat) (id : Nat) : Nat → Option Nat :=
  Function.update since id none

/-- Ids that were forced out of detention may be used at any time. -/
def excuse (since : Nat → Option Nat) (forced : List Nat) : Nat → Option Nat :=
  fun id => if id ∈ forced then none else since id

/-- An id was put into detention, perhaps after others were forced out. -/
def detainedSince (since : Nat → Option Nat) (forced : List Nat) (id ts : Nat) : Nat → Option Nat :=
  Function.update (excuse since forced) id (some ts)

/-- The history after a call. -/
def step (h : DetainerHistory) : DetainerCall → Option DetainerHistory
  | .acquire choice ts =>
      (h.detainer.acquire choice ts).map fun o =>
        { detainer := o.detainer
          held := if o.answer = 0 then h.held else insert o.answer h.held
          observed := o.signals.foldl DetainSignal.observe h.observed
          since := if o.answer = 0 then h.since else forget h.since o.answer
          now := max h.now ts }
  | .release id ts =>
      (h.detainer.release id ts).map fun o =>
        { detainer := o.detainer
          held := if o.answer then h.held.erase id else h.held
          observed := o.signals.foldl DetainSignal.observe h.observed
          since := if o.answer then detainedSince h.since o.forced id ts else h.since
          now := max h.now ts }
  | .detain id ts overcrowd =>
      (h.detainer.detain id ts overcrowd).map fun o =>
        { detainer := o.detainer
          held := h.held
          observed := o.signals.foldl DetainSignal.observe h.observed
          since := if o.answer then detainedSince h.since o.forced id ts else h.since
          now := max h.now ts }
  | .markAsAcquired id ts =>
      (h.detainer.markAsAcquired id ts).map fun o =>
        { detainer := o.detainer
          held := if o.answer then insert id h.held else h.held
          observed := o.signals.foldl DetainSignal.observe h.observed
          since := if o.answer then forget h.since id else h.since
          now := max h.now ts }
  | .releaseDetained ts maxCount =>
      (h.detainer.releaseDetained ts maxCount).map fun (d, ids) =>
        { h with
          detainer := d
          observed := (ids.map DetainSignal.removed).foldl DetainSignal.observe h.observed
          now := max h.now ts }

/-- A call after any others, or nothing once the code has stopped. -/
def stepRun (h : Option DetainerHistory) (call : DetainerCall) : Option DetainerHistory :=
  h.bind fun h => h.step call

/-- The ids that a call names are ids of the pool. -/
def AdmissibleRun : Option DetainerHistory → DetainerCall → Prop
  | some h, call => call.InRange h.detainer.base.maxId
  | none, _ => True

instance decidableAdmissibleRun :
    (h : Option DetainerHistory) → (call : DetainerCall) → Decidable (AdmissibleRun h call)
  | some h, call => decidableInRange h.detainer.base.maxId call
  | none, _ => isTrue trivial

/-- What is promised about detention. -/
structure Detains (maxSize : Nat) (h : DetainerHistory) : Prop where
  partition : ∀ id, 1 ≤ id → id ≤ maxSize →
    (h.detainer.base.checkIfAvailable id = true ∧ id ∉ h.held ∧ id ∉ h.detainer.detained) ∨
    (h.detainer.base.checkIfAvailable id = false ∧ id ∈ h.held ∧
      id ∉ h.detainer.detained) ∨
    (h.detainer.base.checkIfAvailable id = false ∧ id ∉ h.held ∧ id ∈ h.detainer.detained)
  inRange : ∀ id, id ∈ h.held ∨ id ∈ h.detainer.detained → 1 ≤ id ∧ id ≤ maxSize
  size : h.detainer.size = h.held.card
  detainedCount : h.detainer.detainedCount = h.detainer.detained.card
  observed : h.observed = h.detainer.detained
  /-- An id that comes out early, while time has not gone backwards, comes out because
  no other one is left. -/
  acquire : ∀ choice ts, h.now ≤ ts → ∃ o, h.detainer.acquire choice ts = some o ∧
    ∀ t, o.answer ≠ 0 → h.since o.answer = some t → ts ≤ t + h.detainer.detainTime →
      ∃ d ids, h.detainer.releaseSome ts = some (d, ids) ∧
        ∀ id, 1 ≤ id → id ≤ maxSize → d.base.checkIfAvailable id = false
  /-- Ids are forced out only when the detention is full. -/
  release : ∀ id ts, 1 ≤ id → id ≤ maxSize →
    ∃ o, h.detainer.release id ts = some o ∧
      (o.forced ≠ [] → ∃ d ids, h.detainer.releaseSome ts = some (d, ids) ∧
        d.maxDetentionSize ≤ d.detainedCount)
  detain : ∀ id ts overcrowd, 1 ≤ id → id ≤ maxSize →
    ∃ o, h.detainer.detain id ts overcrowd = some o ∧
      (o.forced ≠ [] → ∃ d ids, h.detainer.releaseSome ts = some (d, ids) ∧
        d.maxDetentionSize ≤ d.detainedCount)

/-- The pool is valid and knows what is known outside. -/
structure Keeps (maxSize : Nat) (h : DetainerHistory) : Prop where
  valid : h.detainer.Valid
  maxId : h.detainer.base.maxId = maxSize
  held : h.held = h.detainer.base.held \ h.detainer.detained
  observed : h.observed = h.detainer.detained
  time : ∀ id t, h.since id = some t →
    (∃ bucketTs, (id, bucketTs) ∈ h.detainer.entries ∧
        t ≤ bucketTs + h.detainer.bucketTime) ∨
      t + h.detainer.detainTime < h.now

theorem observe_removed (ids : List Nat) (observed : Finset Nat) :
    (ids.map removed).foldl observe observed = observed \ ids.toFinset := by
  induction ids generalizing observed with
  | nil => simp
  | cons id ids ih =>
    rw [map_cons, foldl_cons, ih, observe]
    ext other
    simp only [Finset.mem_sdiff, Finset.mem_erase, toFinset_cons, Finset.mem_insert]
    tauto

open IdPoolDetainer in
/-- What is detained after some ids have left. -/
theorem mem_detained_of_released {d d' : IdPoolDetainer} {gone : List (Nat × Nat)}
    (h : d.Valid) (released : Valid.Released d d' gone) {id : Nat} :
    id ∈ d'.detained ↔ id ∈ d.detained ∧ id ∉ gone.map Prod.fst := by
  have distinct := h.distinct
  rw [released.entries, map_append, nodup_append] at distinct
  simp only [detained, released.entries, map_append, toFinset_append,
    Finset.mem_union, mem_toFinset]
  constructor
  · intro mem
    exact ⟨.inr mem, fun inGone => distinct.2.2 id inGone id mem rfl⟩
  · rintro ⟨inGone | mem, notGone⟩
    · exact absurd inGone notGone
    · exact mem

section Keeping

variable {maxSize : Nat} {h : DetainerHistory}

variable {id : Nat} {d : IdPoolDetainer} {gone : List (Nat × Nat)}

section

variable (keeps : Keeps maxSize h)
include keeps

/-- Ids leave the detention for the pool: their time is over, or it is forgotten. -/
theorem Keeps.released (released : IdPoolDetainer.Valid.Released h.detainer d gone)
    {since : Nat → Option Nat} {now : Nat} (later : h.now ≤ now)
    (known : ∀ id t, since id = some t → h.since id = some t)
    (past : ∀ entry ∈ gone, since entry.1 ≠ none →
      entry.2 + h.detainer.bucketTime + h.detainer.detainTime < now) : Keeps maxSize { h with
        detainer := d
        observed := ((gone.map Prod.fst).map removed).foldl observe h.observed
        since := since
        now := now } := by
  have left : ∀ id, id ∈ d.detained ↔
      id ∈ h.detainer.detained ∧ id ∉ gone.map Prod.fst :=
    fun id => mem_detained_of_released keeps.valid released
  have goneDetained : ∀ id ∈ gone.map Prod.fst, id ∈ h.detainer.detained := by
    intro id mem
    simp only [detained, released.entries, map_append,
      toFinset_append, Finset.mem_union, mem_toFinset]
    exact .inl mem
  refine ⟨released.valid, released.same.maxId.trans keeps.maxId, ?_, ?_, fun id t some => ?_⟩
  · ext id
    simp only [keeps.held, released.held, Finset.mem_sdiff, left, mem_toFinset]
    tauto
  · ext id
    simp only [observe_removed, keeps.observed, Finset.mem_sdiff, left, mem_toFinset]
  · dsimp only at some ⊢
    rw [released.same.bucketTime, released.same.detainTime]
    rcases keeps.time id t (known id t some) with ⟨bucketTs, entry, young⟩ | prev
    · rw [released.entries, mem_append] at entry
      rcases entry with left | stays
      · have := past _ left (by simp [some])
        omega
      · exact .inl ⟨bucketTs, stays, young⟩
    · omega

/-- Ids whose time is over leave the detention. -/
theorem Keeps.expired (released : IdPoolDetainer.Valid.Released h.detainer d gone) {ts : Nat}
    (past : ∀ entry ∈ gone, entry.2 + h.detainer.bucketTime + h.detainer.detainTime < ts) :
    Keeps maxSize { h with
        detainer := d
        observed := ((gone.map Prod.fst).map removed).foldl observe h.observed
        now := max h.now ts } :=
  keeps.released released (Nat.le_max_left ..) (fun _ _ => id) fun entry mem _ =>
    (past entry mem).trans_le (Nat.le_max_right ..)

/-- Ids are forced out of detention, and are excused. -/
theorem Keeps.forced (released : IdPoolDetainer.Valid.Released h.detainer d gone) : Keeps maxSize
      { h with
        detainer := d
        observed := ((gone.map Prod.fst).map removed).foldl observe h.observed
        since := excuse h.since (gone.map Prod.fst) } := by
  refine keeps.released released (Nat.le_refl _) (fun id t some => ?_) fun entry mem some => ?_
  · unfold excuse at some
    split at some
    · cases some
    · exact some
  · exact absurd (if_pos (mem_map_of_mem mem)) some

/-- The underlying pool hands out an id, or marks one. -/
theorem Keeps.takes {base : IdPool} (takes : IdPool.Takes h.detainer.base base id) : Keeps maxSize
      { h with
        detainer := { h.detainer with base := base }
        held := insert id h.held
        since := forget h.since id } := by
  have fresh : id ∉ h.detainer.detained := fun mem => takes.fresh (keeps.valid.detained_subset mem)
  obtain ⟨valid, eq⟩ := keeps.valid.withBase takes.valid takes.same fun entry mem => by
    rw [takes.held]
    exact Finset.mem_insert_of_mem (keeps.valid.inBase entry mem)
  refine ⟨valid, takes.same.maxId.trans keeps.maxId, ?_, keeps.observed, ?_⟩
  · have sameDetained :
        ({ h.detainer with base := base } : IdPoolDetainer).detained = h.detainer.detained := rfl
    rw [keeps.held, sameDetained, takes.held, Finset.insert_sdiff_of_notMem _ fresh]
  · intro other t since
    simp only [forget, Function.update_apply] at since
    split at since
    · cases since
    · exact keeps.time other t since

/-- An id is handed out, or marked, from detention. -/
theorem Keeps.undetained {id bucketTs : Nat} (valid : d.Valid)
    (eq : IdPoolDetainer.SameSettings h.detainer d) (base : d.base = h.detainer.base)
    (gone : h.detainer.entries.Perm ((id, bucketTs) :: d.entries)) : Keeps maxSize { h with
        detainer := d
        held := insert id h.held
        observed := h.observed.erase id
        since := forget h.since id } := by
  have distinct := ((gone.map Prod.fst).nodup_iff).mp keeps.valid.distinct
  have apart : id ∉ d.detained := by
    simpa [detained] using (nodup_cons.mp distinct).1
  have prev : h.detainer.detained = insert id d.detained := by
    ext other
    rw [detained, mem_toFinset, (gone.map Prod.fst).mem_iff]
    simp [detained]
  have inBase : id ∈ h.detainer.base.held :=
    keeps.valid.inBase (id, bucketTs) (gone.mem_iff.mpr mem_cons_self)
  refine ⟨valid, eq.maxId.trans keeps.maxId, ?_, ?_, ?_⟩
  · ext other
    simp only [keeps.held, base, prev, Finset.mem_insert]
    rcases eq_or_ne other id with rfl | ne
    · simp [inBase, apart]
    · simp [ne]
  · simp only [keeps.observed, prev]
    exact Finset.erase_insert apart
  · intro other t since
    simp only [forget, Function.update_apply] at since
    split at since
    · cases since
    next ne =>
      rw [eq.bucketTime, eq.detainTime]
      rcases keeps.time other t since with ⟨ts, entry, young⟩ | old
      · rcases mem_cons.mp (gone.mem_iff.mp entry) with equal | stays
        · exact absurd (congrArg Prod.fst equal) ne
        · exact .inl ⟨ts, stays, young⟩
      · exact .inr old

/-- A held id goes into detention. -/
theorem Keeps.detained {id bucketTs ts : Nat} (valid : d.Valid)
    (eq : IdPoolDetainer.SameSettings h.detainer d) (base : d.base = h.detainer.base)
    (added : d.entries.Perm ((id, bucketTs) :: h.detainer.entries))
    (young : ts ≤ bucketTs + h.detainer.bucketTime) : Keeps maxSize { h with
        detainer := d
        held := h.held.erase id
        observed := insert id h.observed
        since := Function.update h.since id (some ts) } := by
  have after : d.detained = insert id h.detainer.detained := by
    ext other
    rw [IdPoolDetainer.detained, mem_toFinset, (added.map Prod.fst).mem_iff]
    simp [IdPoolDetainer.detained]
  refine ⟨valid, eq.maxId.trans keeps.maxId, ?_, ?_, ?_⟩
  · ext other
    simp only [keeps.held, base, after, Finset.mem_insert, Finset.mem_sdiff, Finset.mem_erase]
    tauto
  · simp only [keeps.observed, after]
  · intro other t since
    rw [eq.bucketTime, eq.detainTime]
    simp only [Function.update_apply] at since
    split at since
    next equal =>
      subst equal
      obtain rfl := Option.some.inj since
      exact .inl ⟨bucketTs, added.mem_iff.mpr mem_cons_self, young⟩
    · rcases keeps.time other t since with ⟨ts', entry, young'⟩ | old
      · exact .inl ⟨ts', added.mem_iff.mpr (mem_cons_of_mem _ entry), young'⟩
      · exact .inr old

/-- The underlying pool changes, but not what it holds. -/
theorem Keeps.rebased {base : IdPool} (baseValid : base.Valid)
    (eq : IdPool.SameParameters h.detainer.base base) (held : base.held = h.detainer.base.held) :
    Keeps maxSize { h with detainer := { h.detainer with base := base } } := by
  obtain ⟨valid, -⟩ := keeps.valid.withBase baseValid eq fun entry mem =>
    held ▸ keeps.valid.inBase entry mem
  refine ⟨valid, eq.maxId.trans keeps.maxId, ?_, keeps.observed, keeps.time⟩
  simp only [keeps.held, held]
  rfl

/-- The beginning of every operation with a time stamp. -/
theorem Keeps.releaseSome (ts : Nat) : ∃ d expired, h.detainer.releaseSome ts = some (d, expired) ∧
      IdPoolDetainer.SameSettings h.detainer d ∧ Keeps maxSize { h with
          detainer := d
          observed := (expired.map removed).foldl observe h.observed
          now := max h.now ts } := by
  obtain ⟨d, gone, result, released, past⟩ := keeps.valid.releaseSome ts
  exact ⟨d, _, result, released.same, keeps.expired released past⟩

/-- A held id is admitted to detention, after others may have been forced out. -/
theorem Keeps.enter (held : id ∈ h.held) (ts : Nat)
    (overcrowd : Bool) (signals : List DetainSignal) :
    ∃ o more, h.detainer.enter id ts overcrowd signals = some o ∧ o.answer = true ∧
      o.signals = signals ++ more ∧
      (o.forced ≠ [] → h.detainer.maxDetentionSize ≤ h.detainer.detainedCount) ∧ Keeps maxSize
        { h with
          detainer := o.detainer
          held := h.held.erase id
          observed := more.foldl observe h.observed
          since := detainedSince h.since o.forced id ts } := by
  obtain ⟨d₁, gone, room, released⟩ := keeps.valid.makeRoom overcrowd
  have keeps₁ := keeps.forced released
  have here : id ∈ d₁.base.held ∧ id ∉ d₁.detained := by
    have := keeps₁.held
    rw [this, Finset.mem_sdiff] at held
    exact held
  obtain ⟨d₂, bucketTs, inserted, valid₂, eq₂, added, young, base⟩ :=
    keeps₁.valid.insert here.1 here.2 ts
  have keeps₂ := keeps₁.detained valid₂ eq₂ base added young
  let more := ((gone.map Prod.fst).map removed) ++ [.added id ts]
  refine ⟨⟨d₂, true, signals ++ more, gone.map Prod.fst⟩, more, ?_, rfl, rfl, ?_, ?_⟩
  · simp [IdPoolDetainer.enter, room, inserted, more]
  · intro forced
    unfold IdPoolDetainer.makeRoom at room
    split at room
    next full => exact full.2
    · exact absurd (congrArg Prod.snd (Option.some.inj room)).symm forced
  · simpa [more, observe, detainedSince] using keeps₂

theorem Keeps.id_le (high : id ≤ maxSize) : id ≤ h.detainer.base.maxId :=
  high.trans_eq keeps.maxId.symm

/-- `acquire` hands out a free id or, when none is left, a detained one. -/
theorem Keeps.acquire (choice ts : Nat) : ∃ o next, h.detainer.acquire choice ts = some o ∧
      h.step (.acquire choice ts) = some next ∧ Keeps maxSize next ∧
      ∀ t, h.now ≤ ts → o.answer ≠ 0 → h.since o.answer = some t → ts ≤ t + h.detainer.detainTime →
        ∃ d ids, h.detainer.releaseSome ts = some (d, ids) ∧
          ∀ id, 1 ≤ id → id ≤ maxSize → d.base.checkIfAvailable id = false := by
  obtain ⟨d, expired, released, eq, keeps₁⟩ := keeps.releaseSome ts
  simp only [DetainerHistory.step, IdPoolDetainer.acquire, released, Option.bind_eq_bind,
    Option.bind_some, IdPoolDetainer.acquireAny]
  obtain ⟨base, id, acquired, takes | ⟨rfl, all, valid, sameBase, sameHeld⟩⟩ :=
    keeps₁.valid.base.acquire choice
  · -- A free id, which left detention, if ever, when its time was over.
    have ne : id ≠ 0 := by
      have := takes.low
      omega
    have taken := keeps₁.takes takes
    refine ⟨⟨{ d with base := base }, id, expired.map .removed, []⟩, _, ?_, ?_, taken, ?_⟩
    · simp [acquired, ne]
    · simp [acquired, ne]
    · intro t later _ since early
      exfalso
      rcases keeps₁.time id t since with ⟨bucketTs, entry, -⟩ | past
      · exact takes.fresh (keeps₁.valid.inBase _ entry)
      · simp only [eq.detainTime] at past
        omega
  · -- Nothing is free.
    have none : ∀ id, 1 ≤ id → id ≤ maxSize → d.base.checkIfAvailable id = false := by
      intro id low high
      rw [← Bool.not_eq_true, IdPool.checkIfAvailable_iff low (keeps₁.id_le high), not_not, all,
        Finset.mem_Icc]
      exact ⟨low, keeps₁.id_le high⟩
    have keeps₂ := keeps₁.rebased valid sameBase sameHeld
    simp only [acquired]
    cases front : d.detention with
    | nil =>
      exact ⟨⟨{ d with base := base }, 0, expired.map .removed, []⟩, _, by simp [front],
        by simp [front], keeps₂, fun _ _ ne => absurd rfl ne⟩
    | cons bucket rest =>
      obtain ⟨d', id, taken, valid', eq', split, sameBase'⟩ :=
        keeps₂.valid.takeFront (show _ = bucket :: rest from front)
      have keeps₃ := keeps₂.undetained valid' eq' sameBase' (List.Perm.of_eq split)
      have ne : id ≠ 0 := by
        have mem := keeps₂.valid.inBase (id, bucket.ts) (by rw [split]; simp)
        have low := (IdPool.mem_held.mp mem).1.1
        omega
      have taken' : ({ d with base := base } : IdPoolDetainer).takeFront = some (d', id) := taken
      rw [front] at taken'
      exact ⟨⟨d', id, expired.map .removed ++ [.removed id], []⟩, _, by simp [taken'],
        by simp [taken', ne, observe], keeps₃, fun t _ _ _ _ => ⟨d, expired, rfl, none⟩⟩

/-- `release` puts a held id into detention and refuses any other one. -/
theorem Keeps.release (ts : Nat) (low : 1 ≤ id) (high : id ≤ maxSize) :
    ∃ o next, h.detainer.release id ts = some o ∧ h.step (.release id ts) = some next ∧
      Keeps maxSize next ∧ (o.forced ≠ [] → ∃ d ids, h.detainer.releaseSome ts = some (d, ids) ∧
        d.maxDetentionSize ≤ d.detainedCount) := by
  obtain ⟨d, expired, released, -, keeps₁⟩ := keeps.releaseSome ts
  simp only [DetainerHistory.step, IdPoolDetainer.release, released, Option.bind_eq_bind,
    Option.bind_some]
  by_cases refused : id = 0 ∨ d.base.checkIfAvailable id = true ∨ d.detains id = true
  · rw [if_pos refused]
    exact ⟨_, _, rfl, rfl, keeps₁, fun forced => absurd rfl forced⟩
  rw [if_neg refused]
  push Not at refused
  have inBase : id ∈ d.base.held := by
    have taken := refused.2.1
    rw [ne_eq, IdPool.checkIfAvailable_iff low (keeps₁.id_le high), not_not] at taken
    exact taken
  have free : id ∉ d.detained := fun mem => refused.2.2 (IdPoolDetainer.detains_iff.mpr mem)
  have held : id ∈ h.held := by
    have eq := keeps₁.held
    rw [eq]
    exact Finset.mem_sdiff.mpr ⟨inBase, free⟩
  obtain ⟨o, more, admitted, answer, signals, full, keeps₂⟩ :=
    keeps₁.enter held ts false (expired.map .removed)
  refine ⟨o, _, admitted, congrArg _ admitted, ?_, fun forced => ⟨d, expired, rfl, full forced⟩⟩
  simpa [answer, signals] using keeps₂

/-- The number of blocks in front of an id is in the range of an `int`. -/
theorem Keeps.inReach (high : id ≤ maxSize) :
    id / h.detainer.base.blockSize + 1 - h.detainer.base.blocks.length < 2 ^ 31 := by
  have few := keeps.valid.fewBlocks
  have quotient : id / h.detainer.base.blockSize ≤
      h.detainer.base.maxId / h.detainer.base.blockSize := by
    rw [keeps.maxId]
    exact Nat.div_le_div_right high
  omega

/-- `detain` puts a free id into detention and refuses any other one. -/
theorem Keeps.detain (ts : Nat) (overcrowd : Bool) (low : 1 ≤ id) (high : id ≤ maxSize) :
    ∃ o next, h.detainer.detain id ts overcrowd = some o ∧
      h.step (.detain id ts overcrowd) = some next ∧ Keeps maxSize next ∧
      (o.forced ≠ [] → ∃ d ids, h.detainer.releaseSome ts = some (d, ids) ∧
        d.maxDetentionSize ≤ d.detainedCount) := by
  obtain ⟨d, expired, released, -, keeps₁⟩ := keeps.releaseSome ts
  simp only [DetainerHistory.step, IdPoolDetainer.detain, released, Option.bind_eq_bind,
    Option.bind_some]
  by_cases isDetained : d.detains id = true
  · rw [if_pos isDetained]
    exact ⟨_, _, rfl, rfl, keeps₁, fun forced => absurd rfl forced⟩
  rw [if_neg isDetained]
  obtain ⟨base, marked, takes, unchanged⟩ :=
    keeps₁.valid.base.markAsAcquired low (keeps₁.id_le high) (keeps₁.inReach high)
  rw [marked]
  by_cases inBase : id ∈ d.base.held
  · refine ⟨⟨d, false, expired.map .removed, []⟩, _, ?_, ?_, keeps₁,
      fun forced => absurd rfl forced⟩ <;> simp [inBase, unchanged inBase]
  -- The id is held for a moment, and detained then.
  have keeps₂ := keeps₁.takes (takes inBase)
  obtain ⟨o, more, admitted, answer, signals, full, keeps₃⟩ :=
    keeps₂.enter (Finset.mem_insert_self id _) ts overcrowd (expired.map .removed)
  have notHeld : id ∉ h.held := by
    intro held
    have eq := keeps₁.held
    rw [eq] at held
    exact inBase (Finset.mem_sdiff.mp held).1
  have since : detainedSince (forget h.since id) o.forced id ts =
      detainedSince h.since o.forced id ts := by
    funext other
    simp only [detainedSince, excuse, forget, Function.update_apply]
    split_ifs <;> rfl
  refine ⟨o, _, ?result, congrArg _ ?result, ?_, fun forced => ⟨d, expired, rfl, full forced⟩⟩
  case result => simpa [inBase] using admitted
  simpa [answer, signals, since, Finset.erase_insert notHeld] using keeps₃

/-- `markAsAcquired` takes a free or a detained id and refuses a held one. -/
theorem Keeps.markAsAcquired (ts : Nat) (low : 1 ≤ id) (high : id ≤ maxSize) :
    ∃ next, h.step (.markAsAcquired id ts) = some next ∧ Keeps maxSize next := by
  obtain ⟨d, expired, released, -, keeps₁⟩ := keeps.releaseSome ts
  simp only [DetainerHistory.step, IdPoolDetainer.markAsAcquired, released, Option.bind_eq_bind,
    Option.bind_some]
  obtain ⟨base, marked, takes, eq⟩ :=
    keeps₁.valid.base.markAsAcquired low (keeps₁.id_le high) (keeps₁.inReach high)
  rw [marked, Option.bind_some]
  by_cases inBase : id ∈ d.base.held
  · obtain rfl := eq inBase
    simp only [inBase, not_true_eq_false, decide_false, Bool.false_eq_true, if_false]
    by_cases isDetained : id ∈ d.detained
    · obtain ⟨buckets, bucketTs, found, ne, gone⟩ :=
        IdPoolDetainer.Valid.unsetFirst_spec keeps₁.valid.nonempty
          (IdPoolDetainer.mem_detained.mp isDetained)
      let d' : IdPoolDetainer :=
        { d with detention := buckets, detainedCount := d.detainedCount - 1 }
      have gone' : d.entries.Perm ((id, bucketTs) :: d'.entries) := gone
      have valid' : d'.Valid := keeps₁.valid.of_removed gone' rfl rfl rfl ne
      have keeps₂ := keeps₁.undetained valid' ⟨rfl, rfl, rfl, rfl, rfl⟩ rfl gone'
      exact ⟨_, by simp [found, observe, d'], keeps₂⟩
    · have absent : ∀ ts, (id, ts) ∉ IdPoolDetainer.entriesOf d.detention := by
        intro ts mem
        exact isDetained (IdPoolDetainer.mem_detained.mpr ⟨ts, mem⟩)
      rw [IdPoolDetainer.Valid.unsetFirst_none absent]
      exact ⟨_, rfl, keeps₁⟩
  · have keeps₂ := keeps₁.takes (takes inBase)
    exact ⟨_, by simp [inBase], keeps₂⟩

theorem Keeps.releaseDetained (ts : Nat) (maxCount : Int) :
    ∃ next, h.step (.releaseDetained ts maxCount) = some next ∧ Keeps maxSize next := by
  obtain ⟨d, gone, result, released, leave⟩ := keeps.valid.releaseWhile
    (fun bucketTs => decide (bucketTs + h.detainer.bucketTime + h.detainer.detainTime < ts))
    maxCount.toNat
  refine ⟨_, congrArg (Option.map _) result, keeps.expired released fun entry mem => ?_⟩
  simpa using leave entry mem

/-- Every admissible call is answered, and what is known outside stays right. -/
theorem Keeps.step {call : DetainerCall} (inRange : call.InRange maxSize) :
    ∃ next, h.step call = some next ∧ Keeps maxSize next := by
  cases call with
  | acquire choice ts =>
    obtain ⟨o, next, -, stepped, keeps', -⟩ := keeps.acquire choice ts
    exact ⟨next, stepped, keeps'⟩
  | release id ts =>
    obtain ⟨o, next, -, stepped, keeps', -⟩ := keeps.release ts inRange.1 inRange.2
    exact ⟨next, stepped, keeps'⟩
  | detain id ts overcrowd =>
    obtain ⟨o, next, -, stepped, keeps', -⟩ := keeps.detain ts overcrowd inRange.1 inRange.2
    exact ⟨next, stepped, keeps'⟩
  | markAsAcquired id ts => exact keeps.markAsAcquired ts inRange.1 inRange.2
  | releaseDetained ts maxCount => exact keeps.releaseDetained ts maxCount

theorem Keeps.detains : Detains maxSize h := by
  have subset := keeps.valid.detained_subset
  have heldIff : ∀ id, id ∈ h.held ↔
      id ∈ h.detainer.base.held ∧ id ∉ h.detainer.detained := by
    intro id
    rw [keeps.held, Finset.mem_sdiff]
  refine
    { partition := fun id low high => ?_
      inRange := fun id mem => ?_
      size := ?_
      detainedCount := keeps.valid.card_detained.symm
      observed := keeps.observed
      acquire := fun choice ts later => ?_
      release := fun id ts low high => ?_
      detain := fun id ts overcrowd low high => ?_ }
  · have avail := IdPool.checkIfAvailable_iff low (keeps.maxId.symm ▸ high)
    rw [heldIff, ← Bool.not_eq_true]
    tauto
  · have inBase : id ∈ h.detainer.base.held := by
      rcases mem with held | isDetained
      · exact ((heldIff id).mp held).1
      · exact subset isDetained
    rw [← keeps.maxId]
    exact (IdPool.mem_held.mp inBase).1
  · rw [keeps.held, Finset.card_sdiff_of_subset subset, keeps.valid.card_detained]
    exact congrArg (· - h.detainer.detainedCount) keeps.valid.base.used
  · obtain ⟨o, _, acquired, -, -, early⟩ := keeps.acquire choice ts
    exact ⟨o, acquired, fun t => early t later⟩
  · obtain ⟨o, _, released, -, -, forced⟩ := keeps.release ts low high
    exact ⟨o, released, forced⟩
  · obtain ⟨o, _, detained, -, -, forced⟩ := keeps.detain ts overcrowd low high
    exact ⟨o, detained, forced⟩

end

end Keeping

end DetainerHistory

/-- The parameters of a pool with detention. -/
structure DetainerParameters extends IdPool.Parameters where
  kind : BitsetKind
  detainTime : Nat
  bucketCount : Nat
  maxDetentionSize : Nat
  releaseCount : Nat
  buckets : 0 < bucketCount
  fewBlocks : maxSize / IdPool.roundedBlockSize maxSize blockSize + 1 < 2 ^ 31
  width : kind = .deque → maxSize < 2 ^ 32

namespace DetainerHistory

/-- A new pool with an empty detention. -/
def start (p : DetainerParameters) : Option DetainerHistory :=
  (IdPoolDetainer.new p.kind p.detainTime p.bucketCount p.maxSize p.maxDetentionSize
    p.blockSize p.cacheSize p.releaseCount).map fun d =>
      { detainer := d, held := ∅, observed := ∅, since := fun _ => none, now := 0 }

theorem keeps_start (p : DetainerParameters) : ∃ h, start p = some h ∧ Keeps p.maxSize h := by
  obtain ⟨base, created, valid, nothing, maxId, eq⟩ := p.toParameters.valid_new
  let d : IdPoolDetainer :=
    { base := base, detention := [], detainTime := p.detainTime
      bucketTime := p.detainTime / p.bucketCount
      maxDetentionSize := p.maxDetentionSize, detainedCount := 0
      releaseCount := p.releaseCount, kind := p.kind }
  refine ⟨⟨d, ∅, ∅, fun _ => none, 0⟩, ?_, ⟨?_, maxId, ?_, rfl, fun id t since => ?_⟩⟩
  · have pos := Nat.pos_iff_ne_zero.mp p.buckets
    simp [start, new, pos, created, d]
  · exact
      { base := valid
        fewBlocks := by
          have few := p.fewBlocks
          simp only [d, maxId, eq.blockSize]
          exact few
        width := fun deque => by
          simp only [d, maxId]
          exact p.width deque
        nonempty := fun bucket mem => by simp [d] at mem
        distinct := nodup_nil
        inBase := fun entry mem => by simp [entries, d] at mem
        count := rfl }
  · simp [d, nothing]
  · cases since

/-- After any sequence of calls, ids are free, held or detained, and detention keeps
its promise. -/
theorem detains_run (p : DetainerParameters) {calls : List DetainerCall}
    (along : StepSystem.Along stepRun AdmissibleRun (start p) calls) :
    ∃ h, StepSystem.run stepRun (start p) calls = some h ∧ Detains p.maxSize h := by
  have result : ∃ h, StepSystem.run stepRun (start p) calls = some h ∧
      Keeps p.maxSize h := by
    refine StepSystem.invariant_run
      (P := fun state => ∃ h, state = some h ∧ Keeps p.maxSize h) ?_ (keeps_start p) along
    rintro state call ⟨h, rfl, keeps⟩ inRange
    exact keeps.step (keeps.maxId ▸ (show call.InRange h.detainer.base.maxId from inRange))
  obtain ⟨h, reached, keeps⟩ := result
  exact ⟨h, reached, keeps.detains⟩

/-- The ids one to three, of which two may be detained for ten units of time. -/
def twoDetained : DetainerParameters :=
  { PoolHistory.threeIds with
    kind := .judy, detainTime := 10, bucketCount := 2, maxDetentionSize := 2
    releaseCount := 10
    buckets := by decide, fewBlocks := by decide, width := fun deque => by cases deque }

/-- Ids are acquired, released, detained and marked, until one is forced out. -/
theorem detains_twoDetained :
    ∃ h, StepSystem.run stepRun (start twoDetained)
        [.acquire 0 1, .acquire 0 2, .release 1 3, .detain 3 4 false, .release 2 5,
          .markAsAcquired 3 6] = some h ∧ Detains twoDetained.maxSize h :=
  detains_run twoDetained (by decide)

/-- An id goes into detention at time zero, and leaves it at time one hundred. -/
def detainedOnce : List DetainerCall :=
  [.acquire 0 0, .release 1 0, .releaseDetained 100 10]

/-- When the clock is set back, the id is handed out five units after it was put into
detention, although another id is free and the detention was never full. -/
theorem detainedOnce_acquired_early :
    ∃ h, StepSystem.run stepRun (start twoDetained) detainedOnce = some h ∧
      h.since 1 = some 0 ∧
      (h.detainer.acquire 0 5).map Outcome.answer = some 1 ∧
      5 ≤ 0 + h.detainer.detainTime ∧ h.detainer.base.checkIfAvailable 2 = true := by
  refine ⟨_, rfl, rfl, ?_, ?_, ?_⟩
  · decide
  · decide
  · decide

end DetainerHistory

end LeilFS.Ids
