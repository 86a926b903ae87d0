/-
Module: LeilFS.Reading.NegativeCache
Purpose: The client's cache of names that do not exist, under limits that change between calls.
Trusted boundary: none
-/
import LeilFS.Lib.StepSystem

namespace LeilFS.Reading

open List

/-- `listIt` is the number of a node of the age list. The clock is a signed number of 64 bits, so
that its sum with a timeout does not wrap. [SPEC negative_cache.h:164-167] -/
structure NegativeCacheEntry where
  timeoutMs : ℕ
  listIt : ℕ

/-- The order of the map, which nothing reads, is that of the insertions; `fresh` numbers the next
node. A pair is a parent and a name. [SPEC negative_cache.h:210-221] -/
structure NegativeCache (Pair : Type) where
  negativeCache : List (Pair × NegativeCacheEntry)
  timeoutList : List (ℕ × Pair)
  fresh : ℕ
  maxSize : ℕ
  timeoutMs : ℕ

/-- A call of `add`, with the globals and the clock as it reads them. -/
structure AddCall (Pair : Type) where
  pair : Pair
  globalTimeoutMs : ℕ
  globalMaxSize : ℕ
  elapsedMs : ℕ

namespace NegativeCache

variable {Pair : Type} [DecidableEq Pair] (c : NegativeCache Pair) (pair : Pair)

abbrev isMaxSizeAndTimeoutMsSet : Prop := 0 < c.maxSize ∧ 0 < c.timeoutMs

/-- [SPEC negative_cache.h:94-106] -/
def lookup (elapsedMs : ℕ) : Bool :=
  c.isMaxSizeAndTimeoutMsSet &&
    (c.negativeCache.find? (·.1 = pair)).any (elapsedMs < ·.2.timeoutMs)

/-- [SPEC negative_cache.h:118-133] -/
def takeLimits (timeoutMs maxSize : ℕ) : NegativeCache Pair :=
  if c.timeoutMs ≠ timeoutMs ∨ c.maxSize ≠ maxSize then ⟨[], [], c.fresh, maxSize, timeoutMs⟩
  else c

/-- Nothing comes of the removal of a node that is not there, nor of the front of an empty list.
[SPEC negative_cache.h:137-149] -/
def makeRoom : Option (NegativeCache Pair) :=
  match c.negativeCache.find? (·.1 = pair) with
  | some (_, entry) =>
      if entry.listIt ∈ c.timeoutList.map Prod.fst then
        some { c with timeoutList := c.timeoutList.filter (·.1 ≠ entry.listIt) }
      else none
  | none =>
      if c.maxSize ≤ c.negativeCache.length then
        match c.timeoutList with
        | [] => none
        | (_, oldest) :: rest =>
            some { c with
              negativeCache := c.negativeCache.filter (·.1 ≠ oldest), timeoutList := rest }
      else some c

/-- [SPEC negative_cache.h:150-156] -/
def push (elapsedMs : ℕ) : NegativeCache Pair :=
  { c with
    negativeCache := c.negativeCache.filter (·.1 ≠ pair) ++
      [(pair, ⟨elapsedMs + c.timeoutMs, c.fresh⟩)]
    timeoutList := c.timeoutList ++ [(c.fresh, pair)]
    fresh := c.fresh + 1 }

/-- [SPEC negative_cache.h:110-157] -/
def add (call : AddCall Pair) : Option (NegativeCache Pair) :=
  if c.isMaxSizeAndTimeoutMsSet then
    ((c.takeLimits call.globalTimeoutMs call.globalMaxSize).makeRoom call.pair).map
      (·.push call.pair call.elapsedMs)
  else some c

def node (p : Pair × NegativeCacheEntry) : ℕ × Pair := (p.2.listIt, p.1)

def Timed (calls : List (AddCall Pair)) (p : Pair × NegativeCacheEntry) : Prop :=
  ∃ call ∈ calls, call.pair = p.1 ∧ p.2.timeoutMs = call.elapsedMs + call.globalTimeoutMs

/-- What holds after some calls: the age list has a node for each entry, to which the entry links,
and no other; every entry is that of a call. A timeout of zero puts the cache out of use. -/
structure Consistent (calls : List (AddCall Pair)) : Prop where
  links : c.timeoutList = c.negativeCache.map node
  distinct : c.negativeCache.Pairwise fun p q => p.1 ≠ q.1 ∧ p.2.listIt ≠ q.2.listIt
  fresh : ∀ p ∈ c.negativeCache, p.2.listIt < c.fresh
  timed : ∀ p ∈ c.negativeCache, Timed calls p
  bounded : c.negativeCache.length ≤ c.maxSize
  unused : c.timeoutMs = 0 → c.negativeCache.length ≤ 1

variable {c} {calls : List (AddCall Pair)}

omit [DecidableEq Pair] in
theorem consistent_empty (calls : List (AddCall Pair)) (fresh maxSize timeoutMs : ℕ) :
    Consistent ⟨[], [], fresh, maxSize, timeoutMs⟩ calls :=
  ⟨rfl, .nil, by simp, by simp, Nat.zero_le _, fun _ => Nat.zero_le _⟩

namespace Consistent

variable (inv : c.Consistent calls)
include inv

theorem filter_node {p : Pair × NegativeCacheEntry} (mem : p ∈ c.negativeCache) :
    c.timeoutList.filter (·.1 ≠ p.2.listIt) = (c.negativeCache.filter (·.1 ≠ p.1)).map node := by
  rw [inv.links, filter_map]
  refine congrArg _ (filter_congr fun q other => ?_)
  by_cases eq : q = p
  · simp [eq, node]
  have symm : Std.Symm fun p q : Pair × NegativeCacheEntry => p.1 ≠ q.1 ∧ p.2.listIt ≠ q.2.listIt :=
    ⟨fun _ _ h => ⟨h.1.symm, h.2.symm⟩⟩
  simp [node, inv.distinct.forall other mem eq]

/-- The removals of a call leave entries other than that of the pair, and a place for it. -/
theorem makeRoom (pair : Pair) (pos : 0 < c.maxSize) (elapsedMs : ℕ) :
    ∃ kept, kept.Sublist c.negativeCache ∧ kept.length < c.maxSize ∧ (∀ p ∈ kept, p.1 ≠ pair) ∧
      (c.makeRoom pair).map (·.push pair elapsedMs) = some { c with
        negativeCache := kept ++ [(pair, ⟨elapsedMs + c.timeoutMs, c.fresh⟩)]
        timeoutList := kept.map node ++ [(c.fresh, pair)]
        fresh := c.fresh + 1 } := by
  unfold NegativeCache.makeRoom
  split
  · rename_i key entry found
    have mem := mem_of_find?_eq_some found
    obtain rfl : key = pair := by simpa using find?_some found
    refine ⟨c.negativeCache.filter (·.1 ≠ key), filter_sublist, ?_, by simp, ?_⟩
    · refine Nat.lt_of_lt_of_le ?_ inv.bounded
      exact length_filter_lt_length_iff_exists.mpr ⟨_, mem, by simp⟩
    · have linked : entry.listIt ∈ c.timeoutList.map Prod.fst :=
        inv.links ▸ mem_map_of_mem (mem_map_of_mem mem)
      rw [if_pos linked, inv.filter_node mem]
      rfl
  rename_i absent
  have others {kept} (sub : Sublist kept c.negativeCache) : ∀ p ∈ kept, p.1 ≠ pair :=
    fun p mem => by simpa using find?_eq_none.mp absent p (sub.subset mem)
  have keeps {kept} (sub : Sublist kept c.negativeCache) : kept.filter (·.1 ≠ pair) = kept :=
    filter_eq_self.mpr (by simpa using others sub)
  split
  · rename_i full
    rcases cache : c.negativeCache with _ | ⟨oldest, rest⟩
    · rw [cache] at full
      exact absurd full (by simpa using pos.ne')
    have sub : rest.Sublist c.negativeCache := cache ▸ sublist_cons_self ..
    have apart := (pairwise_cons.mp (cache ▸ inv.distinct)).1
    have gone : (oldest :: rest).filter (·.1 ≠ oldest.1) = rest := by
      rw [filter_cons_of_neg (by simp), filter_eq_self]
      simpa using fun k e mem => (apart (k, e) mem).1.symm
    have bounded : (oldest :: rest).length ≤ c.maxSize := cache ▸ inv.bounded
    refine ⟨rest, cache ▸ sub, bounded, others sub, ?_⟩
    rw [inv.links, cache]
    simp only [map_cons, node, Option.map_some, push, gone, keeps sub]
  · rename_i free
    refine ⟨_, .refl _, not_le.mp free, others (.refl _), ?_⟩
    rw [Option.map_some, push, keeps (.refl _), inv.links]

omit [DecidableEq Pair] in
theorem takeLimits (set : 0 < c.timeoutMs) (timeoutMs maxSize : ℕ) :
    ∃ d, c.takeLimits timeoutMs maxSize = d ∧ d.Consistent calls ∧ d.timeoutMs = timeoutMs ∧
      d.maxSize = maxSize ∧ (timeoutMs = 0 → d.negativeCache.length = 0) := by
  unfold NegativeCache.takeLimits
  split
  · exact ⟨_, rfl, consistent_empty .., rfl, rfl, fun _ => rfl⟩
  · rename_i kept
    rw [not_or, not_not, not_not] at kept
    exact ⟨c, rfl, inv, kept.1, kept.2, fun zero => by omega⟩

theorem add (call : AddCall Pair)
    (allowed : c.isMaxSizeAndTimeoutMsSet → 0 < call.globalMaxSize) :
    ∃ d, c.add call = some d ∧ d.Consistent (calls ++ [call]) ∧
      (0 < call.globalMaxSize → d.negativeCache.length ≤ call.globalMaxSize) := by
  have later {p} (old : Timed calls p) : Timed (calls ++ [call]) p :=
    old.imp fun _ found => ⟨mem_append_left _ found.1, found.2⟩
  unfold NegativeCache.add
  split
  · rename_i set
    obtain ⟨d, taken, inv, timeout, limit, cleared⟩ :=
      inv.takeLimits set.2 call.globalTimeoutMs call.globalMaxSize
    obtain ⟨kept, sub, free, others, done⟩ :=
      inv.makeRoom call.pair ((allowed set).trans_eq limit.symm) call.elapsedMs
    rw [taken, done]
    refine ⟨_, rfl, ⟨by simp [node], ?_, ?_, ?_, ?_, fun zero => ?_⟩, ?_⟩
    · refine pairwise_append.mpr ⟨inv.distinct.sublist sub, pairwise_singleton .., ?_⟩
      intro p old
      simpa using ⟨others p old, (inv.fresh p (sub.subset old)).ne⟩
    · refine forall_mem_append.mpr ⟨fun p old => ?_, by simp⟩
      exact (inv.fresh p (sub.subset old)).trans (Nat.lt_succ_self _)
    · refine forall_mem_append.mpr ⟨fun p old => later (inv.timed p (sub.subset old)), ?_⟩
      simp [Timed, timeout]
    · simpa using free
    · have empty := cleared (timeout.symm.trans zero)
      rw [length_append, Nat.eq_zero_of_le_zero (sub.length_le.trans_eq empty)]
      rfl
    · simpa [limit] using fun _ => free
  · rename_i set
    have := inv.bounded
    have := inv.unused
    exact ⟨c, rfl, { inv with timed := fun p mem => later (inv.timed p mem) }, by omega⟩

end Consistent

/-- Calls one after the other on a new cache; those of `lookup` change nothing. -/
def run (maxSize timeoutMs : ℕ) (calls : List (AddCall Pair)) : Option (NegativeCache Pair) :=
  calls.foldlM add ⟨[], [], 0, maxSize, timeoutMs⟩

/-- The cache is out of use, or the limit that it takes over is not zero. -/
def Allowed (c : Option (NegativeCache Pair)) (call : AddCall Pair) : Prop :=
  ∀ d ∈ c, d.isMaxSizeAndTimeoutMsSet → 0 < call.globalMaxSize

instance (c : Option (NegativeCache Pair)) (call : AddCall Pair) : Decidable (Allowed c call) :=
  inferInstanceAs (Decidable (∀ d ∈ c, _))

/-- A call in a run; nothing comes after undefined behaviour. -/
def addStep (c : Option (NegativeCache Pair)) (call : AddCall Pair) : Option (NegativeCache Pair) :=
  c.bind (·.add call)

theorem run_addStep (c : Option (NegativeCache Pair)) (calls : List (AddCall Pair)) :
    StepSystem.run addStep c calls = c.bind (calls.foldlM NegativeCache.add) := by
  induction calls generalizing c with
  | nil => cases c <;> rfl
  | cons call calls ih =>
    rw [StepSystem.run_cons, ih]
    cases c <;> rfl

/-- Calls of `add` none of which takes over the limit zero all succeed, and what is found was added
within the timeout of its call. -/
theorem run_consistent (maxSize timeoutMs : ℕ) (calls : List (AddCall Pair))
    (along : StepSystem.Along addStep Allowed (some ⟨[], [], 0, maxSize, timeoutMs⟩) calls) :
    ∃ c, run maxSize timeoutMs calls = some c ∧ c.Consistent calls ∧
      (∀ last ∈ calls.getLast?, 0 < last.globalMaxSize →
        c.negativeCache.length ≤ last.globalMaxSize) ∧
      ∀ pair elapsedMs, c.lookup pair elapsedMs = true →
        ∃ call ∈ calls, call.pair = pair ∧ elapsedMs < call.elapsedMs + call.globalTimeoutMs := by
  suffices kept : ∃ c, run maxSize timeoutMs calls = some c ∧ c.Consistent calls ∧
      ∀ last ∈ calls.getLast?, 0 < last.globalMaxSize →
        c.negativeCache.length ≤ last.globalMaxSize by
    obtain ⟨c, ran, inv, bounded⟩ := kept
    refine ⟨c, ran, inv, bounded, fun pair elapsedMs hit => ?_⟩
    obtain ⟨p, found, soon⟩ := (Option.any_eq_true _ _).mp (Bool.and_eq_true_iff.mp hit).2
    obtain ⟨call, mem, same, timeout⟩ := inv.timed p (mem_of_find?_eq_some found)
    have key : p.1 = pair := by simpa using find?_some found
    exact ⟨call, mem, same.trans key, timeout ▸ of_decide_eq_true soon⟩
  induction calls using List.reverseRecOn with
  | nil => exact ⟨_, rfl, consistent_empty .., by simp⟩
  | append_singleton calls call ih =>
    obtain ⟨before, allowed, -⟩ := StepSystem.along_append.mp along
    obtain ⟨c, ran, inv, -⟩ := ih before
    rw [run_addStep, Option.bind_some, ← run, ran] at allowed
    obtain ⟨d, added, kept, bounded⟩ := inv.add call (allowed c rfl)
    refine ⟨d, ?_, kept, by simpa using bounded⟩
    rw [run] at ran
    simp [run, ran, added]

/-- The second pair takes the place of the first; then the timeout zero puts the cache out of use,
so that the limit zero does no harm. -/
theorem run_consistent_evicts :
    ∃ c, run 1 1 [⟨"a", 1, 1, 0⟩, ⟨"b", 1, 1, 0⟩, ⟨"c", 0, 1, 0⟩, ⟨"d", 0, 0, 0⟩] = some c ∧
      c.negativeCache.map Prod.fst = ["c"] ∧ c.timeoutList = c.negativeCache.map node := by
  obtain ⟨c, ran, inv, -⟩ := run_consistent 1 1
    [⟨"a", 1, 1, 0⟩, ⟨"b", 1, 1, 0⟩, ⟨"c", 0, 1, 0⟩, ⟨"d", 0, 0, 0⟩] (by decide)
  exact ⟨c, ran, by cases ran; rfl, inv.links⟩

/-- Under the limit zero the second call takes the front of an empty list. -/
theorem run_limit_zero : (run 1 1 [⟨"a", 1, 1, 0⟩, ⟨"b", 1, 0, 0⟩]).isNone = true := by
  rfl

end NegativeCache

end LeilFS.Reading
