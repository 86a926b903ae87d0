/-
Module: LeilFS.Chunks.References
Purpose: How the registry of chunks finds a chunk by its number, and what it plans for the chunk
  of a file.
Trusted boundary: none
-/
import LeilFS.Chunks.Events

namespace LeilFS.Chunks

open Option List

/-! ## Chunks keep their numbers and their counters -/

namespace Chunk

/-- The number of a chunk, and who refers to it. -/
def refs (c : Chunk) : ChunkId × ChunkGoalCounters := (c.chunkid, c.goalCounters)

variable (env : Environment) (c : Chunk)

theorem refs_moveVersion (operation : ChunkOperation) (needsLocking : Bool)
    (planned : List PlannedPart) :
    (c.moveVersion env operation needsLocking planned).refs = c.refs := by
  unfold moveVersion invalidateStaleParts
  dsimp only
  split <;> rfl

theorem refs_emergencyIncreaseVersion : (c.emergencyIncreaseVersion env).refs = c.refs :=
  refs_moveVersion env c .setVersion false (c.validParts env)

theorem refs_handleDisconnectedCopies : (c.handleDisconnectedCopies env).refs = c.refs := by
  unfold handleDisconnectedCopies
  dsimp only
  split_ifs <;> first | rfl | exact refs_emergencyIncreaseVersion env _

end Chunk

/-! ## Finding chunks -/

namespace Registry

/-- The chunk with a number, by a search through all chunks. -/
def chunkOf (r : Registry) (id : ChunkId) : Option Chunk :=
  r.slots.findSome? fun slot => slot.filter (·.chunkid = id)

/-- The chunk that a search gives: one that is not answered from memory drops the copies on lost
servers. -/
def refreshed (r : Registry) (id : ChunkId) : Option Chunk :=
  if r.lastchunkid = id then r.chunkOf id
  else (r.chunkOf id).map (Chunk.handleDisconnectedCopies r.env)

/-- No two chunks have one number, the chunk that was found last is the one with its number, and
all numbers are below the next one. -/
structure Indexed (r : Registry) : Prop where
  unique : ∀ p q c d, r.chunk? p = some c → r.chunk? q = some d → c.chunkid = d.chunkid →
    c.chunkid ≠ 0 → p = q
  remembers : ∀ ptr, r.lastchunkptr = some ptr →
    ∃ c, r.chunk? ptr = some c ∧ c.chunkid = r.lastchunkid
  forgets : r.lastchunkptr = none → r.lastchunkid = 0
  below : ∀ ptr c, r.chunk? ptr = some c → c.chunkid < r.nextChunkId
  positive : 0 < r.nextChunkId

variable {r : Registry} {id other : ChunkId} {ptr : ChunkPtr} {c : Chunk}

theorem chunk?_eq_some : r.chunk? ptr = some c ↔ r.slots[ptr]? = some (some c) := by
  unfold chunk?
  cases r.slots[ptr]? with
  | none => simp
  | some slot => simp

theorem chunk?_modify (f : Chunk → Chunk) (other : ChunkPtr) : (r.modify ptr f).chunk? other =
      if other = ptr then (r.chunk? ptr).map f else r.chunk? other := by
  unfold chunk? modify
  rw [getElem?_modify]
  by_cases eq : other = ptr
  · rw [if_pos eq, eq]
    cases r.slots[ptr]? with
    | none => rfl
    | some slot => simp
  · have apart : ptr ≠ other := fun back => eq back.symm
    rw [if_neg eq]
    simp [apart]

theorem exists_of_chunkOf (found : r.chunkOf id = some c) :
    ∃ ptr, r.chunk? ptr = some c ∧ c.chunkid = id := by
  obtain ⟨slot, mem, is⟩ := exists_of_findSome?_eq_some found
  obtain ⟨is, numbered⟩ := filter_eq_some_iff.mp is
  obtain ⟨ptr, there⟩ := mem_iff_getElem?.mp mem
  exact ⟨ptr, chunk?_eq_some.mpr (is ▸ there), of_decide_eq_true numbered⟩

theorem exists_chunkOf (eq : r.chunk? ptr = some c) (numbered : c.chunkid = id) :
    ∃ d, r.chunkOf id = some d := by
  rw [← isSome_iff_exists, chunkOf, findSome?_isSome_iff]
  refine ⟨some c, mem_of_getElem? (chunk?_eq_some.mp eq), ?_⟩
  simp [numbered]

/-- A number that is not 0 stands for one chunk. -/
theorem Indexed.chunkOf_eq_some (h : r.Indexed) (ne : id ≠ 0) :
    r.chunkOf id = some c ↔ ∃ ptr, r.chunk? ptr = some c ∧ c.chunkid = id := by
  refine ⟨exists_of_chunkOf, ?_⟩
  rintro ⟨ptr, there, numbered⟩
  obtain ⟨d, found⟩ := exists_chunkOf there numbered
  obtain ⟨ptr', there', numbered'⟩ := exists_of_chunkOf found
  have eq := h.unique ptr ptr' c d there there' (numbered.trans numbered'.symm)
    (numbered ▸ ne)
  rw [eq, there'] at there
  rw [found, there]

theorem chunkOf_eq_none : r.chunkOf id = none ↔
    ∀ ptr c, r.chunk? ptr = some c → c.chunkid ≠ id := by
  constructor
  · intro absent ptr c there numbered
    obtain ⟨d, found⟩ := exists_chunkOf there numbered
    rw [absent] at found
    cases found
  · intro none
    by_contra some
    obtain ⟨c, found⟩ := ne_none_iff_exists'.mp some
    obtain ⟨ptr, there, numbered⟩ := exists_of_chunkOf found
    exact none ptr c there numbered

/-- A change of one chunk that leaves its number alone. -/
theorem Indexed.modify (h : r.Indexed) (there : r.chunk? ptr = some c) {f : Chunk → Chunk}
    (numbered : (f c).chunkid = c.chunkid) : (r.modify ptr f).Indexed := by
  have numbers : ∀ p d, (r.modify ptr f).chunk? p = some d →
      ∃ d', r.chunk? p = some d' ∧ d.chunkid = d'.chunkid := by
    intro p d found
    rw [chunk?_modify] at found
    by_cases here : p = ptr
    · rw [if_pos here, there] at found
      obtain rfl := Option.some.inj found
      exact ⟨c, here ▸ there, numbered⟩
    · rw [if_neg here] at found
      exact ⟨d, found, rfl⟩
  refine ⟨?_, ?_, h.forgets, ?_, h.positive⟩
  · intro p q d e foundD foundE eq ne
    obtain ⟨d', thereD, sameD⟩ := numbers p d foundD
    obtain ⟨e', thereE, sameE⟩ := numbers q e foundE
    exact h.unique p q d' e' thereD thereE (by rw [← sameD, ← sameE, eq]) (sameD ▸ ne)
  · intro p last
    obtain ⟨d, thereD, is⟩ := h.remembers p last
    rw [chunk?_modify]
    by_cases here : p = ptr
    · rw [here, there] at thereD
      obtain rfl := Option.some.inj thereD
      refine ⟨f c, ?_, numbered.trans is⟩
      rw [if_pos here, there, map_some]
    · exact ⟨d, by rw [if_neg here, thereD], is⟩
  · intro p d found
    obtain ⟨d', thereD, eq⟩ := numbers p d found
    rw [eq]
    exact h.below p d' thereD

theorem Indexed.chunkOf_modify (h : r.Indexed) (there : r.chunk? ptr = some c)
    {f : Chunk → Chunk} (numbered : (f c).chunkid = c.chunkid) (ne : other ≠ 0) :
    (r.modify ptr f).chunkOf other = if other = c.chunkid then some (f c) else r.chunkOf other := by
  by_cases eq : other = c.chunkid
  · rw [if_pos eq, (h.modify there numbered).chunkOf_eq_some ne]
    refine ⟨ptr, ?_, numbered.trans eq.symm⟩
    rw [chunk?_modify, if_pos rfl, there, map_some]
  rw [if_neg eq]
  refine ext fun d => ?_
  rw [(h.modify there numbered).chunkOf_eq_some ne, h.chunkOf_eq_some ne]
  refine exists_congr fun p => and_congr_left fun is => ?_
  rw [chunk?_modify]
  by_cases here : p = ptr
  · rw [if_pos here, here, there, map_some, Option.some.injEq, Option.some.injEq]
    constructor
    · intro changed
      rw [← changed, numbered] at is
      exact absurd is.symm eq
    · intro old
      rw [← old] at is
      exact absurd is.symm eq
  · rw [if_neg here]

/-- The numbers behind pointers stay, and no chunk comes in. -/
theorem Indexed.remember (h : r.Indexed) (eq : r.chunk? ptr = some c)
    (numbered : c.chunkid = id) : (r.remember id ptr).Indexed := by
  refine ⟨h.unique, ?_, ?_, h.below, h.positive⟩
  · intro p last
    obtain rfl := Option.some.inj last
    exact ⟨c, eq, numbered⟩
  · intro none
    cases none

theorem exists_of_findIdx? (found : r.slots.findIdx? (·.any (·.chunkid = id)) = some ptr) :
    ∃ c, r.chunk? ptr = some c ∧ c.chunkid = id := by
  obtain ⟨inside, any, -⟩ := findIdx?_eq_some_iff_getElem.mp found
  have there := getElem?_eq_getElem inside
  cases slot : r.slots[ptr] with
  | none =>
    rw [slot] at any
    cases any
  | some c =>
    rw [slot] at any there
    exact ⟨c, chunk?_eq_some.mpr there, of_decide_eq_true any⟩

/-- What a search does: it gives the chunk of that number, and nothing else changes. -/
theorem Indexed.find (h : r.Indexed) (id : ChunkId) : (r.find id).2.Indexed ∧
      (∀ other ≠ 0, (r.find id).2.chunkOf other =
        if other = id then r.refreshed id else r.chunkOf other) ∧
      match (r.find id).1 with
      | none => id ≠ 0 → r.chunkOf id = none
      | some ptr => ∃ c, (r.find id).2.chunk? ptr = some c ∧ c.chunkid = id := by
  unfold Registry.find
  by_cases cached : r.lastchunkid = id
  · rw [if_pos cached]
    refine ⟨h, fun other _ => ?_, ?_⟩
    · by_cases eq : other = id
      · rw [if_pos eq, refreshed, if_pos cached, eq]
      · rw [if_neg eq]
    · cases last : r.lastchunkptr with
      | none => exact fun ne => absurd (cached.symm.trans (h.forgets last)) ne
      | some ptr =>
        obtain ⟨c, there, is⟩ := h.remembers ptr last
        exact ⟨c, there, is.trans cached⟩
  · rw [if_neg cached]
    cases found : r.slots.findIdx? (·.any (·.chunkid = id)) with
    | none =>
      have absent : r.chunkOf id = none := by
        rw [chunkOf_eq_none]
        intro ptr c there numbered
        have no := findIdx?_eq_none_iff.mp found (some c)
          (mem_of_getElem? (chunk?_eq_some.mp there))
        simp [numbered] at no
      refine ⟨h, fun other _ => ?_, fun _ => absent⟩
      by_cases eq : other = id
      · rw [if_pos eq, refreshed, if_neg cached, eq, absent]
        rfl
      · rw [if_neg eq]
    | some ptr =>
      obtain ⟨c, there, numbered⟩ := exists_of_findIdx? found
      have kept : (c.handleDisconnectedCopies r.env).chunkid = c.chunkid :=
        congrArg Prod.fst (c.refs_handleDisconnectedCopies r.env)
      have indexed := h.remember there numbered
      refine ⟨indexed.modify there kept, fun other some => ?_, ?_⟩
      · rw [indexed.chunkOf_modify there kept some, numbered]
        by_cases eq : other = id
        · have is : r.chunkOf id = Option.some c :=
            (h.chunkOf_eq_some (eq ▸ some)).mpr ⟨ptr, there, numbered⟩
          rw [if_pos eq, if_pos eq, refreshed, if_neg cached, is]
          rfl
        · rw [if_neg eq, if_neg eq]
          rfl
      · refine ⟨c.handleDisconnectedCopies r.env, ?_, kept.trans numbered⟩
        rw [chunk?_modify, if_pos rfl]
        show (r.chunk? ptr).map _ = _
        rw [there]
        rfl

theorem find_nextChunkId (r : Registry) (id : ChunkId) :
    (r.find id).2.nextChunkId = r.nextChunkId := by
  unfold Registry.find
  split
  · rfl
  · split <;> rfl

namespace Indexed

/-- A chunk that is there is found, with its counters. -/
theorem exists_find (h : r.Indexed) (ne : id ≠ 0) (there : r.chunkOf id = some c) :
    ∃ ptr d, r.find id = (some ptr, (r.find id).2) ∧ (r.find id).2.chunk? ptr = some d ∧
      d.refs = c.refs ∧ r.refreshed id = some d := by
  obtain ⟨indexed, chunks, found⟩ := h.find id
  cases answer : (r.find id).1 with
  | none =>
    rw [answer] at found
    rw [found ne] at there
    cases there
  | some ptr =>
    rw [answer] at found
    obtain ⟨d, is, numbered⟩ := found
    have refreshed : r.refreshed id = some d := by
      have eq := (indexed.chunkOf_eq_some ne).mpr ⟨ptr, is, numbered⟩
      rwa [chunks id ne, if_pos rfl] at eq
    refine ⟨ptr, d, Prod.ext answer rfl, is, ?_, refreshed⟩
    unfold Registry.refreshed at refreshed
    rw [there] at refreshed
    split at refreshed
    · rw [Option.some.inj refreshed]
    · rw [← Option.some.inj refreshed]
      exact c.refs_handleDisconnectedCopies r.env

theorem find_absent (h : r.Indexed) (ne : id ≠ 0) (absent : r.chunkOf id = none) :
    r.find id = (none, r) := by
  have unknown := chunkOf_eq_none.mp absent
  unfold Registry.find
  split
  next cached =>
    cases last : r.lastchunkptr with
    | none => exact absurd (cached.symm.trans (h.forgets last)) ne
    | some ptr =>
      obtain ⟨c, there, is⟩ := h.remembers ptr last
      exact absurd (is.trans cached) (unknown ptr c there)
  · split
    next found =>
      obtain ⟨c, there, is⟩ := exists_of_findIdx? found
      exact absurd is (unknown _ c there)
    · rfl

/-- The chunk that a search gives has the number and the counters of the one that is there. -/
theorem exists_chunkOf_of_refreshed (is : r.refreshed id = some c) :
    ∃ d, r.chunkOf id = some d ∧ c.refs = d.refs := by
  unfold refreshed at is
  split at is
  · exact ⟨c, is, rfl⟩
  · obtain ⟨d, there, cleaned⟩ := map_eq_some_iff.mp is
    exact ⟨d, there, cleaned ▸ d.refs_handleDisconnectedCopies r.env⟩

/-- The chunk that a search gives stands behind the pointer that is found. -/
theorem exists_find_of_refreshed (h : r.Indexed) (ne : id ≠ 0) (is : r.refreshed id = some c) :
    ∃ ptr, r.find id = (some ptr, (r.find id).2) ∧ (r.find id).2.chunk? ptr = some c ∧
      c.chunkid = id := by
  obtain ⟨d, there, -⟩ := exists_chunkOf_of_refreshed is
  obtain ⟨ptr, c', found, behind, refs, is'⟩ := h.exists_find ne there
  rw [is] at is'
  obtain rfl := Option.some.inj is'
  exact ⟨ptr, found, behind, (congrArg Prod.fst refs).trans (exists_of_chunkOf there).choose_spec.2⟩

theorem lookup_eq (h : r.Indexed) (ne : id ≠ 0) :
    r.lookup id = (r.refreshed id, (r.find id).2) := by
  unfold lookup
  cases is : r.refreshed id with
  | some c =>
    obtain ⟨ptr, found, behind, -⟩ := h.exists_find_of_refreshed ne is
    rw [found]
    exact Prod.ext behind rfl
  | none =>
    have absent : r.chunkOf id = none := by
      rw [refreshed] at is
      split at is
      · exact is
      · exact map_eq_none_iff.mp is
    rw [h.find_absent ne absent]
    rfl

end Indexed

/-! ## Plans for files -/

/-- What a plan for a file can be, when the chunk was found. -/
inductive FilePlan (r : Registry) (c : Chunk) (inPlaceOperation copyOperation : ChunkOperation)
    (plan : ChunkMutationPlan) : ChunkMutationPlan → Registry → Prop
  | refused {planned : ChunkMutationPlan} (status : planned.status ≠ .ok) :
      FilePlan r c inPlaceOperation copyOperation plan planned r
  | inPlace (single : c.fileCount = 1) :
      FilePlan r c inPlaceOperation copyOperation plan
        { plan with
          targetChunkId := c.chunkid
          operation := if inPlaceOperation = .none then
            if c.lockWaitsForReplies r.env then .lock else .none
            else inPlaceOperation
          parts := c.validParts r.env } r
  | copies (shared : 1 < c.fileCount) :
      FilePlan r c inPlaceOperation copyOperation plan
        { plan with
          operation := copyOperation
          targetChunkId := r.nextChunkId
          parts := c.validParts r.env } r.takeChunkId.2

theorem filePlan (r : Registry) (c : Chunk) (quotaExceeded : Bool)
    (inPlaceOperation copyOperation : ChunkOperation) (plan : ChunkMutationPlan) :
    FilePlan r c inPlaceOperation copyOperation plan
      (r.planFileChange c quotaExceeded inPlaceOperation copyOperation plan).1
      (r.planFileChange c quotaExceeded inPlaceOperation copyOperation plan).2 := by
  unfold planFileChange
  split
  next single =>
    split
    · exact FilePlan.refused (by simp [ChunkMutationPlan.refuse])
    · exact FilePlan.inPlace single
  next several =>
    split
    · exact FilePlan.refused (by simp [ChunkMutationPlan.refuse])
    next some =>
      split
      · exact FilePlan.refused (by simp [ChunkMutationPlan.refuse])
      · exact FilePlan.copies (by omega)

end Registry

end LeilFS.Chunks
