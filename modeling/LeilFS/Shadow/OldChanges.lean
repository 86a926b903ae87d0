/-
Module: LeilFS.Shadow.OldChanges
Purpose: The changes a master keeps in memory for shadows that come back, and what it sends of
  them.
Trusted boundary: none
-/
import Mathlib

namespace LeilFS.Shadow

open List

variable {α : Type*}

/-- A logged change, with its version. -/
structure OldChangesEntry (α : Type*) where
  version : ℕ
  data : α
deriving DecidableEq

structure OldChangesBlock (α : Type*) where
  oldChangesBlock : List (OldChangesEntry α)
  minTimestamp : UInt32
  minVersion : ℕ
deriving DecidableEq

/-! ## The master's history -/

/-- The changes of a history. Metadata begin at version 1, and every change adds one. -/
def changes (history : List α) : List (OldChangesEntry α) :=
  history.mapIdx fun i data => ⟨i + 1, data⟩

@[simp] theorem length_changes (history : List α) : (changes history).length = history.length :=
  length_mapIdx

@[simp] theorem changes_concat (history : List α) (data : α) :
    changes (history ++ [data]) = changes history ++ [⟨history.length + 1, data⟩] :=
  mapIdx_concat

theorem version_changes (history : List α) :
    (changes history).map (·.version) = range' 1 history.length := by
  apply ext_getElem <;> simp [changes, Nat.add_comm]

theorem sorted_changes (history : List α) : (changes history).Pairwise (·.version < ·.version) := by
  have versions : (range' 1 history.length).Pairwise (· < ·) := pairwise_lt_range'
  rwa [← version_changes, pairwise_map] at versions

variable {history : List α} {blocks : List (OldChangesBlock α)} {entry : OldChangesEntry α}

theorem version_le_of_mem_take {n : ℕ}
    (mem : entry ∈ (changes history).take n) : entry.version ≤ n := by
  obtain ⟨i, inside, rfl⟩ := mem_take_iff_getElem.mp mem
  simp only [changes, getElem_mapIdx]
  omega

theorem lt_version_of_mem_drop {n : ℕ}
    (mem : entry ∈ (changes history).drop n) : n < entry.version := by
  obtain ⟨i, inside, rfl⟩ := mem_drop_iff_getElem.mp mem
  simp only [changes, getElem_mapIdx]
  omega

theorem version_of_initial_drop {n : ℕ} {sent : List (OldChangesEntry α)}
    (initial : sent <+: (changes history).drop n) :
    sent.map (·.version) = range' (n + 1) sent.length := by
  obtain ⟨rest, whole⟩ := initial
  have versions := congrArg (List.map (·.version)) whole
  rw [map_drop, version_changes, drop_range', map_append] at versions
  obtain ⟨k, -, eq, -⟩ := range'_eq_append_iff.mp versions.symm
  have length := congrArg length eq
  rw [length_map, length_range'] at length
  rw [eq, length, Nat.mul_one, Nat.add_comm]

/-- A change of the history is the one its version says. -/
theorem take_concat_of_mem (mem : entry ∈ changes history) :
    1 ≤ entry.version ∧ entry.version ≤ history.length ∧
      (changes history).take (entry.version - 1) ++ [entry] =
        (changes history).take entry.version := by
  obtain ⟨i, inside, at_⟩ := getElem_of_mem mem
  have version : entry.version = i + 1 := by simp [← at_, changes]
  rw [length_changes] at inside
  refine ⟨by omega, by omega, ?_⟩
  rw [version, Nat.add_sub_cancel, ← at_, take_concat_get' _ _ (by simpa using inside)]

/-! ## What is kept -/

def kOldChangesBlockSize : ℕ := 5000

/-- While there is a second block whose changes are too old, the first one is dropped. -/
def dropExpired (secondsToRemember : UInt16) (ts : UInt32) :
    List (OldChangesBlock α) → List (OldChangesBlock α)
  | block :: next :: rest =>
      if next.minTimestamp + secondsToRemember.toUInt32 < ts then
        dropExpired secondsToRemember ts (next :: rest)
      else block :: next :: rest
  | blocks => blocks

/-- The change comes to the last block. -/
def addEntry (entry : OldChangesEntry α) : List (OldChangesBlock α) → List (OldChangesBlock α)
  | [] => []
  | [block] => [{ block with oldChangesBlock := block.oldChangesBlock ++ [entry] }]
  | block :: next :: rest => block :: addEntry entry (next :: rest)

/-- A new block is needed. -/
def full (blocks : List (OldChangesBlock α)) : Bool :=
  match blocks.getLast? with
  | none => true
  | some block => kOldChangesBlockSize ≤ block.oldChangesBlock.length

def storeLogstring (secondsToRemember : UInt16) (ts : UInt32) (version : ℕ) (logstr : α)
    (blocks : List (OldChangesBlock α)) : List (OldChangesBlock α) :=
  if secondsToRemember = 0 then []
  else
    let blocks :=
      if full blocks then dropExpired secondsToRemember ts (blocks ++ [⟨[], ts, version⟩])
      else blocks
    addEntry ⟨version, logstr⟩ blocks

/-- No block follows, or one that begins above the version. -/
def endsThere (version : ℕ) : List (OldChangesBlock α) → Bool
  | [] => true
  | next :: _ => version < next.minVersion

/-- The changes above a version, in the order of the blocks; `start` says that an earlier block
was sent. -/
def sendOldChanges (version : ℕ) : Bool → List (OldChangesBlock α) → List (OldChangesEntry α)
  | _, [] => []
  | start, block :: rest =>
      let start := start || version ≤ block.minVersion ||
        (block.minVersion ≤ version && endsThere version rest)
      (if start then block.oldChangesBlock.filter (version < ·.version) else []) ++
        sendOldChanges version start rest

/-! ## The kept changes are the last ones -/

/-- All changes in some blocks. -/
def flat (blocks : List (OldChangesBlock α)) : List (OldChangesEntry α) :=
  blocks.flatMap (·.oldChangesBlock)

@[simp] theorem flat_nil : flat ([] : List (OldChangesBlock α)) = [] := rfl

@[simp] theorem flat_cons (block : OldChangesBlock α) (rest : List (OldChangesBlock α)) :
    flat (block :: rest) = block.oldChangesBlock ++ flat rest := by
  simp [flat]

@[simp] theorem flat_append (first second : List (OldChangesBlock α)) :
    flat (first ++ second) = flat first ++ flat second := by
  simp [flat]

/-- A block begins with the change of its smallest version. -/
def OldChangesBlock.Begins (block : OldChangesBlock α) : Prop :=
  block.oldChangesBlock.head?.map (·.version) = some block.minVersion

theorem dropExpired_concat (secondsToRemember : UInt16) (ts : UInt32)
    (blocks : List (OldChangesBlock α)) (last : OldChangesBlock α) : ∃ kept, kept <:+ blocks ∧
      dropExpired secondsToRemember ts (blocks ++ [last]) = kept ++ [last] := by
  induction blocks with
  | nil => exact ⟨[], suffix_rfl, rfl⟩
  | cons block blocks ih =>
    obtain ⟨kept, tail, eq⟩ := ih
    -- The recursion looks at the block that follows.
    obtain ⟨next, rest, shape⟩ : ∃ next rest, blocks ++ [last] = next :: rest :=
      exists_cons_of_ne_nil (by simp)
    rw [cons_append, shape, dropExpired]
    split
    · exact ⟨kept, tail.trans (suffix_cons _ _), by rw [← shape, eq]⟩
    · exact ⟨block :: blocks, suffix_rfl, by rw [← shape]; rfl⟩

theorem addEntry_concat (entry : OldChangesEntry α) (blocks : List (OldChangesBlock α))
    (last : OldChangesBlock α) : addEntry entry (blocks ++ [last]) =
      blocks ++ [{ last with oldChangesBlock := last.oldChangesBlock ++ [entry] }] := by
  induction blocks with
  | nil => rfl
  | cons block blocks ih =>
    obtain ⟨next, rest, shape⟩ : ∃ next rest, blocks ++ [last] = next :: rest :=
      exists_cons_of_ne_nil (by simp)
    rw [cons_append, shape, addEntry, ← shape, ih, cons_append]

/-- The blocks hold the last changes of the history, each block from its smallest version on. -/
structure Remembers (history : List α) (blocks : List (OldChangesBlock α)) : Prop where
  tail : flat blocks <:+ changes history
  begins : ∀ block ∈ blocks, block.Begins

theorem remembers_nil (history : List α) : Remembers history [] where
  tail := nil_suffix
  begins := by simp

/-- The new change comes to a block that is empty and waits for it, or that has begun. -/
theorem Remembers.addEntry {last : OldChangesBlock α} (data : α)
    (tail : flat (blocks ++ [last]) <:+ changes history) (begins : ∀ block ∈ blocks, block.Begins)
    (open_ : last.Begins ∨ last.oldChangesBlock = [] ∧ last.minVersion = history.length + 1) :
    Remembers (history ++ [data]) (addEntry ⟨history.length + 1, data⟩ (blocks ++ [last])) := by
  rw [addEntry_concat]
  constructor
  · obtain ⟨older, all⟩ := tail
    rw [changes_concat, ← all]
    simp
  · intro block mem
    rcases mem_append.mp mem with prev | added
    · exact begins block prev
    obtain rfl := mem_singleton.mp added
    rcases open_ with begun | ⟨nothing, version⟩
    · unfold OldChangesBlock.Begins at begun ⊢
      rw [head?_append_of_ne_nil]
      · exact begun
      · intro nothing
        simp [nothing] at begun
    · simp [OldChangesBlock.Begins, nothing, version]

theorem Remembers.storeLogstring
    (h : Remembers history blocks) (secondsToRemember : UInt16) (ts : UInt32) (data : α) :
    Remembers (history ++ [data])
      (storeLogstring secondsToRemember ts (history.length + 1) data blocks) := by
  unfold Shadow.storeLogstring
  split
  · exact remembers_nil _
  · cases isFull : full blocks with
    | true =>
      obtain ⟨kept, suffix, eq⟩ := dropExpired_concat secondsToRemember ts blocks
        ⟨[], ts, history.length + 1⟩
      simp only [eq]
      refine Remembers.addEntry data ?_ ?_ (.inr ⟨rfl, rfl⟩)
      · obtain ⟨older, all⟩ := suffix
        refine List.IsSuffix.trans ⟨flat older, ?_⟩ h.tail
        rw [← all]
        simp
      · exact fun block mem => h.begins block (suffix.subset mem)
    | false =>
      obtain ⟨front, last, rfl⟩ : ∃ front last, blocks = front ++ [last] := by
        refine ⟨blocks.dropLast, blocks.getLast ?_, (dropLast_append_getLast _).symm⟩
        rintro rfl
        simp [full] at isFull
      simp only [Bool.false_eq_true]
      exact Remembers.addEntry data h.tail
        (fun block mem => h.begins block (mem_append_left _ mem))
        (.inl (h.begins last (by simp)))

/-! ## What is sent -/

/-- A block that is passed over holds nothing that is asked for. -/
theorem sendOldChanges_eq {version : ℕ} (begins : ∀ block ∈ blocks, block.Begins)
    (sorted : (flat blocks).Pairwise (·.version < ·.version)) (start : Bool) :
    sendOldChanges version start blocks = (flat blocks).filter (version < ·.version) := by
  induction blocks generalizing start with
  | nil => rfl
  | cons block rest ih =>
    have others := ih (fun block mem => begins block (mem_cons_of_mem _ mem))
      (pairwise_append.mp sorted).2.1
    rw [sendOldChanges, others, flat_cons, filter_append]
    congr 1
    split
    · rfl
    next passed =>
      simp only [Bool.or_eq_true, Bool.and_eq_true, decide_eq_true_eq, not_or, not_and,
        Nat.not_le] at passed
      obtain ⟨⟨-, below⟩, notLast⟩ := passed
      cases rest with
      | nil => exact absurd rfl (notLast below.le)
      | cons next rest =>
        have reached : next.minVersion ≤ version := by
          simpa [endsThere] using notLast below.le
        obtain ⟨first, head, versionFirst⟩ :=
          Option.map_eq_some_iff.mp (begins next (by simp))
        have first_mem : first ∈ flat (next :: rest) := by
          exact mem_append_left _ (mem_of_mem_head? head)
        refine (filter_eq_nil_iff.mpr fun entry mem => ?_).symm
        have := (pairwise_append.mp sorted).2.2 entry mem first first_mem
        simp only [decide_eq_true_eq]
        omega

/-- From a version on that the blocks still have, or that is to come, everything is sent. -/
theorem Remembers.sendOldChanges (h : Remembers history blocks) {reply : ℕ} (start : 1 ≤ reply)
    (kept : history.length < reply ∨ ∃ block, blocks.head? = some block ∧
      block.minVersion ≤ reply) :
    sendOldChanges (reply - 1) false blocks = (changes history).drop (reply - 1) := by
  obtain ⟨older, all⟩ := h.tail
  have sorted := sorted_changes history
  rw [← all] at sorted
  rw [sendOldChanges_eq h.begins (pairwise_append.mp sorted).2.1]
  have whole : flat blocks = (changes history).drop older.length := by
    rw [← all, drop_left]
  -- Older changes than those in the blocks are not asked for.
  have older_le : older.length ≤ reply - 1 := by
    rcases kept with future | ⟨block, first, small⟩
    · have := congrArg length all
      rw [length_append, length_changes] at this
      omega
    obtain ⟨entry, head, version⟩ := Option.map_eq_some_iff.mp
      (h.begins block (mem_of_mem_head? first))
    have mem : entry ∈ (changes history).drop older.length := by
      rw [← whole]
      exact mem_flatMap.mpr ⟨block, mem_of_mem_head? first, mem_of_mem_head? head⟩
    have := lt_version_of_mem_drop mem
    omega
  have split : (changes history).drop older.length =
      ((changes history).take (reply - 1)).drop older.length ++
        (changes history).drop (reply - 1) := by
    conv_lhs => rw [← take_append_drop (reply - 1) (changes history)]
    rcases Nat.le_total (reply - 1) (changes history).length with inside | beyond
    · rw [drop_append_of_le_length (by rw [length_take]; omega)]
    · rw [drop_eq_nil_of_le beyond, append_nil, append_nil]
  rw [whole, split, filter_append, filter_eq_nil_iff.mpr, filter_eq_self.mpr, nil_append]
  · intro entry mem
    exact decide_eq_true (lt_version_of_mem_drop mem)
  · intro entry mem
    have := version_le_of_mem_take (mem_of_mem_drop mem)
    simpa using this

end LeilFS.Shadow
