/-
Module: LeilFS.Shadow.QuotaChecksum
Purpose: The quota database, and what its checksum tells a shadow about the limits of its master.
Trusted boundary: the hash, of which only the independence of its values is used
-/
import Mathlib

namespace LeilFS.Shadow

/-- [SPEC quota.h:27-42] -/
inductive QuotaRigor where
  | soft
  | hard
  | used
deriving DecidableEq

inductive QuotaResource where
  | inodes
  | size
deriving DecidableEq

inductive QuotaOwnerType where
  | user
  | group
  | inode
deriving DecidableEq

structure QuotaOwner where
  ownerType : QuotaOwnerType
  ownerId : UInt32
deriving DecidableEq

structure QuotaEntry where
  owner : QuotaOwner
  rigor : QuotaRigor
  resource : QuotaResource
  limit : UInt64
deriving DecidableEq

instance : Fintype QuotaRigor := ⟨{.soft, .hard, .used}, fun rigor => by cases rigor <;> decide⟩

instance : Fintype QuotaResource := ⟨{.inodes, .size}, fun resource => by cases resource <;> decide⟩

/-- [SPEC quota_database.h:33] -/
abbrev Limits := QuotaRigor → QuotaResource → UInt64

/-- The tables of the three owner types as one. [SPEC quota_database.h:34,148] -/
abbrev QuotaDatabase := Finmap fun _ : QuotaOwner => Limits

namespace QuotaDatabase

def limitRigors : Finset QuotaRigor := {.soft, .hard}

section Operations

variable (db : QuotaDatabase) (owner : QuotaOwner) (rigor : QuotaRigor) (resource : QuotaResource)

/-- The limits of an owner. They are zero where the table has none. -/
def limits : Limits := (db.lookup owner).getD 0

/-- [SPEC quota_database.h:60-63] -/
def set (value : UInt64) : QuotaDatabase :=
  db.insert owner (Function.update (db.limits owner) rigor
    (Function.update (db.limits owner rigor) resource value))

/-- [SPEC quota_database.h:72-75] -/
def update (delta : UInt64) : QuotaDatabase :=
  db.set owner rigor resource (db.limits owner rigor resource + delta)

/-- [SPEC quota_database.h:96-104] -/
def removeEmpty : QuotaDatabase := if db.lookup owner = some 0 then db.erase owner else db

/-- [SPEC quota_database.cc:25-37] -/
def remove : QuotaDatabase :=
  if owner ∈ db then (db.set owner rigor resource 0).removeEmpty owner else db

/-- [SPEC quota_database.cc:68-80, quota_database.h:135-146] -/
def getEntries : Finset QuotaEntry :=
  ((db.keys ×ˢ limitRigors ×ˢ .univ).image fun (owner, rigor, resource) =>
    ⟨owner, rigor, resource, db.limits owner rigor resource⟩).filter (0 < ·.limit)

end Operations

/-- The databases in which limits are set for these owners; what is used may be counted for
others. -/
inductive Reached (owners : Set QuotaOwner) : QuotaDatabase → Prop
  | empty : Reached owners ∅
  | set {db owner rigor} (reached : Reached owners db)
      (known : rigor ∈ limitRigors → owner ∈ owners) (resource value) :
      Reached owners (db.set owner rigor resource value)
  | update {db owner rigor} (reached : Reached owners db)
      (known : rigor ∈ limitRigors → owner ∈ owners) (resource delta) :
      Reached owners (db.update owner rigor resource delta)
  | remove {db} (reached : Reached owners db) (owner rigor resource) :
      Reached owners (db.remove owner rigor resource)
  -- the second overload of `remove`
  | removeOwner {db} (reached : Reached owners db) (owner) : Reached owners (db.erase owner)
  | removeEmpty {db} (reached : Reached owners db) (owner) : Reached owners (db.removeEmpty owner)

/-- The same soft and hard limits. -/
def SameLimits (a b : QuotaDatabase) : Prop :=
  ∀ owner resource, ∀ rigor ∈ limitRigors,
    a.limits owner rigor resource = b.limits owner rigor resource

end QuotaDatabase

/-- What is combined into the hash of an entry. -/
abbrev HashArgs := QuotaOwnerType × UInt8 × QuotaRigor × QuotaResource × UInt64

/-- The owner id is cast to one byte. [SPEC quota_database.h:125-133] -/
def QuotaEntry.hashArgs (entry : QuotaEntry) : HashArgs :=
  (entry.owner.ownerType, entry.owner.ownerId.toUInt8, entry.rigor, entry.resource, entry.limit)

/-- All that the hash is told about an owner. -/
def QuotaOwner.hashed (owner : QuotaOwner) : QuotaOwnerType × UInt8 :=
  (owner.ownerType, owner.ownerId.toUInt8)

namespace QuotaDatabase

variable {V : Type*} [AddCommGroup V]

/-- The loop visits the entries that `getEntries` lists; the sum is the exclusive or.
[SPEC quota_database.cc:112-126] -/
def checksum (hash : HashArgs → V) (seed : V) (db : QuotaDatabase) : V :=
  seed + ∑ entry ∈ db.getEntries, hash entry.hashArgs

variable {a b db : QuotaDatabase} {owners : Set QuotaOwner} {owner : QuotaOwner}
    {rigor : QuotaRigor}
  {resource : QuotaResource}

theorem mem_of_limits (limited : 0 < db.limits owner rigor resource) : owner ∈ db := by
  by_contra absent
  rw [limits, Finmap.lookup_eq_none.mpr absent] at limited
  exact UInt64.lt_irrefl _ limited

theorem mem_getEntries {entry : QuotaEntry} : entry ∈ db.getEntries ↔
    entry.rigor ∈ limitRigors ∧ 0 < entry.limit ∧
      db.limits entry.owner entry.rigor entry.resource = entry.limit := by
  obtain ⟨owner, rigor, resource, limit⟩ := entry
  simp only [getEntries, Finset.mem_filter, Finset.mem_image, Finset.mem_product, Prod.exists,
    QuotaEntry.mk.injEq]
  constructor
  · rintro ⟨⟨_, _, _, ⟨-, listed, -⟩, rfl, rfl, rfl, rfl⟩, limited⟩
    exact ⟨listed, limited, rfl⟩
  · rintro ⟨listed, limited, rfl⟩
    have stored := Finmap.mem_keys.mpr (mem_of_limits limited)
    exact ⟨⟨owner, rigor, resource, ⟨stored, listed, Finset.mem_univ _⟩, rfl, rfl, rfl, rfl⟩,
      limited⟩

theorem limits_le (within : a.getEntries ⊆ b.getEntries) (counted : rigor ∈ limitRigors) :
    a.limits owner rigor resource ≤ b.limits owner rigor resource := by
  by_cases limited : 0 < a.limits owner rigor resource
  · have listed : ⟨owner, rigor, resource, _⟩ ∈ a.getEntries :=
      mem_getEntries.mpr ⟨counted, limited, rfl⟩
    exact UInt64.le_of_eq (mem_getEntries.mp (within listed)).2.2.symm
  · exact UInt64.le_trans (UInt64.not_lt.mp limited) UInt64.zero_le

/-- The entries say all there is in the limits. -/
theorem getEntries_eq_iff : a.getEntries = b.getEntries ↔ a.SameLimits b := by
  constructor
  · intro eq owner resource rigor counted
    exact UInt64.le_antisymm (limits_le eq.le counted) (limits_le eq.ge counted)
  · intro eq
    ext entry
    simp only [mem_getEntries]
    exact and_congr_right fun counted => by rw [eq _ _ _ counted]

theorem limits_set (db : QuotaDatabase) (changed : QuotaOwner) (r : QuotaRigor)
    (s : QuotaResource) (value : UInt64) : (db.set changed r s value).limits owner rigor resource =
      if owner = changed ∧ rigor = r ∧ resource = s then value
      else db.limits owner rigor resource := by
  by_cases eq : owner = changed
  · subst eq
    have stored : (db.set owner r s value).limits owner =
        Function.update (db.limits owner) r (Function.update (db.limits owner r) s value) := by
      rw [limits, set, Finmap.lookup_insert, Option.getD_some]
    rw [stored]
    by_cases same : rigor = r
    · subst same
      by_cases here : resource = s <;> simp [here]
    · simp [same]
  · simp [set, limits, Finmap.lookup_insert_of_ne, eq]

/-- What is dropped as empty has no limits. -/
theorem limits_removeEmpty (db : QuotaDatabase) (changed : QuotaOwner) :
    (db.removeEmpty changed).limits owner = db.limits owner := by
  unfold removeEmpty
  split
  next empty =>
    by_cases eq : owner = changed
    · rw [eq, limits, limits, Finmap.lookup_erase, empty]
      rfl
    · rw [limits, limits, Finmap.lookup_erase_ne eq]
  · rfl

/-- Limits are those of owners for which they were set. -/
theorem Reached.known (reached : Reached owners db) (counted : rigor ∈ limitRigors)
    (limited : 0 < db.limits owner rigor resource) : owner ∈ owners := by
  have nothing : ¬ (0 : UInt64) < 0 := UInt64.lt_irrefl _
  have written {db : QuotaDatabase} {i r res value} (known : r ∈ limitRigors → i ∈ owners)
      (ih : 0 < db.limits owner rigor resource → owner ∈ owners)
      (limited : 0 < (db.set i r res value).limits owner rigor resource) : owner ∈ owners := by
    rw [limits_set] at limited
    split at limited
    next here => exact here.1 ▸ known (here.2.1 ▸ counted)
    · exact ih limited
  induction reached with
  | empty => exact absurd (mem_of_limits limited) Finmap.notMem_empty
  | set _ known _ _ ih => exact written known ih limited
  | update _ known _ _ ih => exact written known ih limited
  | remove _ _ _ _ ih =>
    unfold QuotaDatabase.remove at limited
    split at limited
    · rw [limits_removeEmpty, limits_set] at limited
      split at limited
      · exact absurd limited nothing
      · exact ih limited
    · exact ih limited
  | removeOwner _ changed ih =>
    by_cases eq : owner = changed
    · rw [eq, limits, Finmap.lookup_erase] at limited
      exact absurd limited nothing
    · rw [limits, Finmap.lookup_erase_ne eq] at limited
      exact ih limited
  | removeEmpty _ _ ih => exact ih (by rwa [limits_removeEmpty] at limited)

variable [Module (ZMod 2) V] {hash : HashArgs → V}

theorem eq_of_sum_eq {v : QuotaEntry → V} {s : Set QuotaEntry}
    (independent : LinearIndepOn (ZMod 2) v s) {A B : Finset QuotaEntry} (left : ↑A ⊆ s)
    (right : ↑B ⊆ s) (eq : ∑ i ∈ A, v i = ∑ i ∈ B, v i) : A = B := by
  have zero := linearIndepOn_iff'.mp independent (A ∪ B)
    (fun i => (if i ∈ A then 1 else 0) - if i ∈ B then 1 else 0) (by simp [left, right]) (by
      simp [sub_smul, Finset.union_inter_cancel_left, Finset.union_inter_cancel_right, eq])
  ext i
  by_cases mem : i ∈ A ∪ B
  · have := zero i mem
    by_cases inA : i ∈ A <;> by_cases inB : i ∈ B <;> simp [inA, inB] at this ⊢
  · simp_all

theorem getEntries_set (owner : QuotaOwner) :
    (set ∅ owner .soft .inodes 1).getEntries = {⟨owner, .soft, .inodes, 1⟩} := by
  ext ⟨other, rigor, resource, limit⟩
  rw [mem_getEntries, Finset.mem_singleton]
  by_cases eq : other = owner
  · subst eq
    cases rigor <;> cases resource <;>
      simp [set, limits, limitRigors, UInt64.pos_iff_ne_zero, eq_comm]
    rintro rfl
    decide
  · simp [set, limits, UInt64.pos_iff_ne_zero, Finmap.lookup_insert_of_ne, eq, Ne.symm eq, eq_comm]

/-- The checksum tells limits apart exactly where no two owners of one type have ids with the same
low byte. -/
theorem checksum_faithful_iff (independent : LinearIndependent (ZMod 2) hash) (seed : V)
    (owners : Set QuotaOwner) :
    (∀ a b, Reached owners a → Reached owners b →
      (a.checksum hash seed = b.checksum hash seed ↔ a.SameLimits b)) ↔
      Set.InjOn QuotaOwner.hashed owners := by
  constructor
  · -- one limit, for either owner
    intro faithful i member j member' same
    have alone {k : QuotaOwner} (known : k ∈ owners) : Reached owners (set ∅ k .soft .inodes 1) :=
      .set .empty (fun _ => known) ..
    have limits := (faithful _ _ (alone member) (alone member')).mp (by
      obtain ⟨type, byte⟩ := Prod.mk.inj same
      simp [checksum, getEntries_set, QuotaEntry.hashArgs, type, byte])
    simpa [getEntries_set] using getEntries_eq_iff.mpr limits
  · intro injective a b reachedA reachedB
    rw [← getEntries_eq_iff, checksum, checksum, add_right_inj]
    refine ⟨fun same => ?_, fun same => by rw [same]⟩
    have distinct : Set.InjOn QuotaEntry.hashArgs {entry | entry.owner ∈ owners} := by
      rintro ⟨i, _⟩ known ⟨j, _⟩ known' same
      simp only [QuotaEntry.hashArgs, Prod.mk.injEq] at same
      obtain ⟨type, byte, rfl, rfl, rfl⟩ := same
      obtain rfl : i = j := injective known known' (Prod.ext type byte)
      rfl
    have within {db} (reached : Reached owners db) :
        ↑db.getEntries ⊆ {entry : QuotaEntry | entry.owner ∈ owners} := by
      intro entry listed
      obtain ⟨counted, limited, same⟩ := mem_getEntries.mp listed
      exact reached.known counted (same ▸ limited)
    exact eq_of_sum_eq (v := fun entry => hash entry.hashArgs)
      (independent.comp _ distinct.injective) (within reachedA) (within reachedB) same

/-- User 1 and group 257 are told apart. -/
theorem checksum_faithful_pair :
    Set.InjOn QuotaOwner.hashed {⟨.user, 1⟩, ⟨.group, 257⟩} ∧
      ∀ a b, Reached {⟨.user, 1⟩, ⟨.group, 257⟩} a → Reached {⟨.user, 1⟩, ⟨.group, 257⟩} b →
      (a.checksum (Finsupp.single · (1 : ZMod 2)) 0 = b.checksum (Finsupp.single · 1) 0 ↔
        a.SameLimits b) := by
  have faithful := checksum_faithful_iff (Finsupp.linearIndependent_single_one ..) 0
    {⟨.user, 1⟩, ⟨.group, 257⟩}
  refine (and_iff_left_of_imp faithful.mpr).mpr ?_
  rintro _ (rfl | rfl) _ (rfl | rfl) same
  · rfl
  · exact absurd same (by decide)
  · exact absurd same (by decide)
  · rfl

/-- User 1 or user 257 with a limit of one inode. -/
theorem checksum_collides :
    ∃ a b : QuotaDatabase, Reached Set.univ a ∧ Reached Set.univ b ∧ ¬ a.SameLimits b ∧
      ∀ (hash : HashArgs → HashArgs →₀ ZMod 2) seed,
        a.checksum hash seed = b.checksum hash seed := by
  refine ⟨set ∅ ⟨.user, 1⟩ .soft .inodes 1, set ∅ ⟨.user, 257⟩ .soft .inodes 1,
    .set .empty (fun _ => Set.mem_univ _) .., .set .empty (fun _ => Set.mem_univ _) .., ?_,
    fun hash seed => ?_⟩
  · rw [← getEntries_eq_iff, getEntries_set, getEntries_set]
    decide
  · simp only [checksum, getEntries_set, Finset.sum_singleton]
    rfl

end QuotaDatabase

end LeilFS.Shadow
