/-
Module: LeilFS.Shadow.SetQuota
Purpose: Quota changes that the master accepts and logs, and their replay on a shadow.
Trusted boundary: the hash of the checksum
-/
import LeilFS.Shadow.QuotaChecksum

namespace LeilFS.Shadow

structure QuotaMetadata (V : Type) where
  quotaDatabase : QuotaDatabase
  quotaChecksum : V

/-- What the request looks at besides its entries. -/
structure QuotaContext where
  readonly : Bool
  uid : UInt32
  allCanChangeQuota : Bool
  hasNode : UInt32 → Bool

inductive QuotaRefusal where
  | erofs | eperm | einval
deriving DecidableEq

/-- SETQUOTA, with the letters of rigor, resource and owner type. -/
structure QuotaLine where
  rigor : Char
  resource : Char
  ownerType : Char
  ownerId : UInt32
  limit : UInt64

/-- [SPEC filesystem_quota.cc:218-220,247-250] -/
def QuotaEntry.line (entry : QuotaEntry) : QuotaLine where
  rigor := match entry.rigor with | .soft => 'S' | .hard => 'H' | .used => 'U'
  resource := match entry.resource with | .inodes => 'I' | .size => 'S'
  ownerType := match entry.owner.ownerType with | .user => 'U' | .group => 'G' | .inode => 'I'
  ownerId := entry.owner.ownerId
  limit := entry.limit

variable {V : Type} [AddCommGroup V] (hash : HashArgs → V) (seed : V)

/-- [SPEC filesystem_quota.cc:243-246,275-277] -/
def QuotaMetadata.set (md : QuotaMetadata V) (entry : QuotaEntry) : QuotaMetadata V :=
  let db := (md.quotaDatabase.set entry.owner entry.rigor entry.resource entry.limit).removeEmpty
    entry.owner
  ⟨db, db.checksum hash seed⟩

/-- The new state of the master and the lines it logs. [SPEC filesystem_quota.cc:216-253] -/
def fsQuotaSet (context : QuotaContext) (md : QuotaMetadata V) (entries : List QuotaEntry) :
    Except QuotaRefusal (QuotaMetadata V × List QuotaLine) :=
  if context.readonly then .error .erofs
  else if context.uid ≠ 0 ∧ ¬ context.allCanChangeQuota then .error .eperm
  else if entries.any fun entry =>
      entry.owner.ownerType = .inode ∧ ¬ context.hasNode entry.owner.ownerId then .error .einval
  else .ok (entries.foldl (QuotaMetadata.set hash seed) md, entries.map QuotaEntry.line)

/-- [SPEC filesystem_quota.h:47-56] -/
def decodeChar {α : Type} (keys : List Char) (values : List α) (key : Char) : Option α :=
  (keys.zip values).lookup key

/-- [SPEC filesystem_quota.cc:259-279] -/
def fsApplySetquota (md : QuotaMetadata V) (line : QuotaLine) : Option (QuotaMetadata V) := do
  let rigor : QuotaRigor ← decodeChar ['S', 'H'] [.soft, .hard] line.rigor
  let resource : QuotaResource ← decodeChar ['S', 'I'] [.size, .inodes] line.resource
  let ownerType : QuotaOwnerType ← decodeChar ['U', 'G', 'I'] [.user, .group, .inode] line.ownerType
  some (md.set hash seed ⟨⟨ownerType, line.ownerId⟩, rigor, resource, line.limit⟩)

variable {hash seed} {context : QuotaContext} {md md' : QuotaMetadata V}

/-- The line of an entry sets the entry, but there is no letter for a usage. -/
theorem fsApplySetquota_line (md : QuotaMetadata V) (entry : QuotaEntry) :
    fsApplySetquota hash seed md entry.line =
      if entry.rigor = .used then none else some (md.set hash seed entry) := by
  obtain ⟨⟨ownerType, ownerId⟩, rigor, resource, limit⟩ := entry
  cases rigor <;> cases resource <;> cases ownerType <;> rfl

theorem replay_eq (md : QuotaMetadata V) (entries : List QuotaEntry) :
    (entries.map QuotaEntry.line).foldlM (fsApplySetquota hash seed) md =
      if ∀ entry ∈ entries, entry.rigor ≠ .used then
        some (entries.foldl (QuotaMetadata.set hash seed) md) else none := by
  induction entries generalizing md with
  | nil => rfl
  | cons entry entries ih =>
    rw [List.map_cons, List.foldlM_cons, fsApplySetquota_line]
    by_cases used : entry.rigor = .used
    · simp [used]
    · rw [if_neg used]
      simpa [used] using ih (md.set hash seed entry)

/-- What the master accepted is replayed, with its effect on limits, usage and checksum, exactly
when no entry sets a usage. -/
theorem fsQuotaSet_replays_iff {entries : List QuotaEntry} {lines : List QuotaLine}
    (accepted : fsQuotaSet hash seed context md entries = .ok (md', lines)) :
    lines.foldlM (fsApplySetquota hash seed) md = some md' ↔
      ∀ entry ∈ entries, entry.rigor ≠ .used := by
  unfold fsQuotaSet at accepted
  split_ifs at accepted
  cases accepted
  rw [replay_eq]
  split <;> simp_all

/-- Root limits the size of user 1. -/
theorem fsQuotaSet_replays_limit :
    let entries := [⟨⟨.user, 1⟩, .hard, .size, 5⟩]
    ∃ md lines, fsQuotaSet (fun _ => (1 : ZMod 2)) 0 ⟨false, 0, false, fun _ => false⟩ ⟨∅, 0⟩
        entries = .ok (md, lines) ∧
      lines.foldlM (fsApplySetquota (fun _ => 1) 0) ⟨∅, 0⟩ = some md := by
  intro entries
  have accepted : fsQuotaSet (fun _ => (1 : ZMod 2)) 0 ⟨false, 0, false, fun _ => false⟩ ⟨∅, 0⟩
    entries = .ok _ := rfl
  exact ⟨_, _, accepted, (fsQuotaSet_replays_iff accepted).mpr (by decide)⟩

/-- Root sets the number of inodes that user 1 is said to use. -/
theorem fsQuotaSet_usage_not_replayed :
    ∃ md lines, fsQuotaSet (fun _ => (1 : ZMod 2)) 0 ⟨false, 0, false, fun _ => false⟩ ⟨∅, 0⟩
        [⟨⟨.user, 1⟩, .used, .inodes, 5⟩] = .ok (md, lines) ∧
      lines.foldlM (fsApplySetquota (fun _ => (1 : ZMod 2)) 0) ⟨∅, 0⟩ = none :=
  ⟨_, _, rfl, rfl⟩

end LeilFS.Shadow
