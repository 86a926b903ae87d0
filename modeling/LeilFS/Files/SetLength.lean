/-
Module: LeilFS.Files.SetLength
Purpose: What setting the length of a file leaves of its chunk table.
Trusted boundary: none
-/
import LeilFS.Chunks.References
import LeilFS.Files.FileStore

namespace LeilFS.Chunks.Registry

variable {r : Registry} {id : ChunkId} {goal : GoalId} {lockid : UInt32}

theorem multiTruncate_fst (r : Registry) (id : ChunkId) (lockid : UInt32) (goal : GoalId)
    (denyTruncatingParityParts quotaExceeded : Bool) :
    (r.multiTruncate id lockid goal denyTruncatingParityParts quotaExceeded).1 =
      (r.planTruncate id lockid goal denyTruncatingParityParts quotaExceeded).1 := by
  unfold multiTruncate runIfOk
  split <;> rfl

theorem FilePlan.truncates {c : Chunk} {base plan : ChunkMutationPlan} {after : Registry}
    (planned : FilePlan r c .truncate .duptrunc base plan after) (ok : plan.status = .ok) :
    plan.chunkId = base.chunkId ∧ (c.fileCount = 1 ∧ plan.targetChunkId = c.chunkid ∨
        c.fileCount ≠ 1 ∧ plan.targetChunkId = r.nextChunkId ∧ plan.operation = .duptrunc) := by
  cases planned with
  | refused status => exact absurd ok status
  | inPlace single => exact ⟨rfl, .inl ⟨single, rfl⟩⟩
  | copies shared => exact ⟨rfl, .inr ⟨Nat.ne_of_gt shared, rfl, rfl⟩⟩

/-- The plan of a truncation that is accepted: a chunk with one reference keeps its number, a
shared one is copied under a number of its own. -/
theorem Indexed.planTruncate_ok (h : r.Indexed) (ne : id ≠ 0)
    {denyTruncatingParityParts quotaExceeded : Bool} {plan : ChunkMutationPlan}
    (is : (r.planTruncate id lockid goal denyTruncatingParityParts quotaExceeded).1 = plan)
    (ok : plan.status = .ok) : plan.chunkId = id ∧ ∃ c, r.chunkOf id = some c ∧
      (c.fileCount = 1 ∧ plan.targetChunkId = id ∨
        c.fileCount ≠ 1 ∧ plan.targetChunkId ≠ id ∧ plan.operation = .duptrunc) := by
  subst is
  unfold planTruncate at ok ⊢
  rw [h.lookup_eq ne] at ok ⊢
  cases found : r.refreshed id with
  | none =>
    rw [found] at ok
    cases ok
  | some c =>
    obtain ⟨d, there, refs⟩ := exists_chunkOf_of_refreshed found
    obtain ⟨ptr, -, behind, numbered⟩ := h.exists_find_of_refreshed ne found
    have counters : d.fileCount = c.fileCount :=
      congrArg ChunkGoalCounters.fileCount (congrArg Prod.snd refs).symm
    rw [found] at ok
    dsimp only at ok ⊢
    split at ok
    · cases ok
    split at ok
    · cases ok
    split at ok
    · cases ok
    next writable unlocked possible =>
      rw [if_neg writable, if_neg unlocked, if_neg possible]
      obtain ⟨works, target⟩ :=
        (filePlan (r.find id).2 c quotaExceeded .truncate .duptrunc _).truncates ok
      refine ⟨works, d, there, ?_⟩
      rw [counters]
      refine target.imp (fun ⟨single, eq⟩ => ⟨single, eq.trans numbered⟩)
        fun ⟨shared, next, operation⟩ => ⟨shared, fun eq => ?_, operation⟩
      -- a number that is in use is below the next one
      have below := (h.find id).1.below ptr c behind
      rw [find_nextChunkId] at below next
      exact UInt64.lt_irrefl _ (next ▸ eq ▸ numbered ▸ below)

end LeilFS.Chunks.Registry

namespace LeilFS.Files

open Chunks
open Nodes (InodeId)
open FileStore

/-- What setting a length is to leave of a file: all chunks that lie below the length, the one
that the length ends in, which may have been copied and cut, and nothing after it. -/
structure LengthSet (before : FSNodeFile) (length : UInt64) (answer : TruncateAnswer)
    (after : FSNodeFile) : Prop where
  exact : after.length = length
  whole : ∀ i, i * chunkSize + chunkSize ≤ length.toNat →
    after.chunks.slot i = before.chunks.slot i
  boundary : ∀ i, i * chunkSize < length.toNat → length.toNat < i * chunkSize + chunkSize →
    after.chunks.slot i = before.chunks.slot i ∨
      ∃ index chunkLength plan, answer = .delayed index chunkLength plan ∧ index.toNat = i ∧
        chunkLength.toNat = length.toNat % chunkSize ∧ plan.operation = .duptrunc ∧
        plan.chunkId = before.chunks.slot i ∧ after.chunks.slot i = plan.targetChunkId
  beyond : ∀ i, length.toNat ≤ i * chunkSize → after.chunks.slot i = 0

namespace FileStore

variable {s : FileStore} {call : TruncateCall} {file : FSNodeFile}

/-- The table after a request that was accepted, with the chunk that the length ends in. -/
inductive Accepted (s : FileStore) (call : TruncateCall) (file : FSNodeFile) :
    TruncateAnswer → FSNodeFile → Prop
  | done (nothing : boundaryLength call.length = 0 ∨
      file.chunks.slot (boundaryIndex call.length).toNat = 0) : Accepted s call file .done file
  | delayed (plan : ChunkMutationPlan) (c : Chunk) (cuts : boundaryLength call.length ≠ 0)
      (inside : (boundaryIndex call.length).toNat < file.chunks.ids.length)
      (holds : file.chunks.get (boundaryIndex call.length) ≠ 0)
      (works : plan.chunkId = file.chunks.get (boundaryIndex call.length))
      (there : s.chunks.chunkOf (file.chunks.get (boundaryIndex call.length)) = some c)
      (target : c.fileCount = 1 ∧ plan.targetChunkId = plan.chunkId ∨
        c.fileCount ≠ 1 ∧ plan.targetChunkId ≠ plan.chunkId ∧ plan.operation = .duptrunc) :
      Accepted s call file
        (.delayed (boundaryIndex call.length) (boundaryLength call.length) plan)
        { file with
          chunks := file.chunks.set (boundaryIndex call.length) plan.targetChunkId }

theorem accepted (h : s.chunks.Indexed) (eq : s.file call.inode = some file)
    (accepts : ∀ status, (s.trySetLength call).1 ≠ .refused status) :
    ∃ file', (s.trySetLength call).2.file call.inode = some file' ∧
      Accepted s call file (s.trySetLength call).1 file' := by
  unfold trySetLength at accepts ⊢
  rw [eq] at accepts ⊢
  cases verdict : call.verdict with
  | some status =>
    rw [verdict] at accepts
    exact absurd rfl (accepts status)
  | none =>
    rw [verdict] at accepts
    dsimp only at accepts ⊢
    split at accepts
    next cuts =>
      rw [if_pos cuts]
      split at accepts
      · exact absurd rfl (accepts _)
      next ok =>
        rw [if_neg ok]
        have ne : file.chunks.get (boundaryIndex call.length) ≠ 0 := fun zero =>
          UInt64.lt_irrefl 0 (zero ▸ cuts.2.2)
        have lt : (boundaryIndex call.length).toNat < file.chunks.ids.length := by
          rw [← file.chunks.size_toNat]
          exact UInt32.lt_iff_toNat_lt.mp cuts.2.1
        obtain ⟨works, c, found, target⟩ := h.planTruncate_ok ne
          (Registry.multiTruncate_fst ..).symm (not_not.mp ok)
        refine ⟨_, ?_, .delayed _ c cuts.1 lt ne works found ?_⟩
        · exact Finmap.lookup_insert _
        · rw [works]
          exact target
    next nothing =>
      rw [if_neg nothing]
      refine ⟨file, eq, .done ?_⟩
      by_contra holds
      rw [not_or] at holds
      refine nothing ⟨holds.1, ?_, UInt64.pos_iff_ne_zero.mpr holds.2⟩
      rw [UInt32.lt_iff_toNat_lt, file.chunks.size_toNat]
      by_contra outside
      exact holds.2 (file.chunks.slot_of_le (Nat.le_of_not_lt outside))

/-- The table that setting a length leaves. -/
theorem file_setLength {file' : FSNodeFile} (eq : s.file call.inode = some file') :
    (s.setLength call.inode call.length true).file call.inode = some { file' with
        length := call.length
        chunks := file'.chunks.truncate (chunksOfLength call.length) } := by
  unfold setLength
  rw [eq]
  exact Finmap.lookup_insert _

/-- A length that the indexes of 32 bits can hold, or a file whose chunks all stand below the
index that it is cut to, where the one that is truncated is not shared. -/
def LengthKept (s : FileStore) (file : FSNodeFile) (length : UInt64) : Prop :=
  length.toNat ≤ (2 ^ 32 - 1) * chunkSize ∨
    ∀ i, file.chunks.slot i ≠ 0 →
      i < (length.toNat + (chunkSize - 1)) / chunkSize % 2 ^ 32 ∧
        (length.toNat % chunkSize ≠ 0 → i = length.toNat / chunkSize % 2 ^ 32 →
          ∀ c, s.chunks.chunkOf (file.chunks.slot i) = some c → c.fileCount = 1)

/-- The chunk of a slot was shared, and the slot now holds a copy that is to be cut. -/
structure CutCopy (s : FileStore) (call : TruncateCall) (file : FSNodeFile)
    (answer : TruncateAnswer) (i : Nat) (plan : ChunkMutationPlan) (c : Chunk) : Prop where
  answers : answer = .delayed (boundaryIndex call.length) (boundaryLength call.length) plan
  here : i = (boundaryIndex call.length).toNat
  cuts : boundaryLength call.length ≠ 0
  holds : file.chunks.slot i ≠ 0
  works : plan.chunkId = file.chunks.slot i
  there : s.chunks.chunkOf (file.chunks.slot i) = some c
  shared : c.fileCount ≠ 1
  operation : plan.operation = .duptrunc
  other : plan.targetChunkId ≠ file.chunks.slot i

namespace Accepted

variable {answer : TruncateAnswer} {file' : FSNodeFile}

/-- Only a shared chunk that the length ends in is replaced. -/
theorem slot (is : Accepted s call file answer file') (i : Nat) :
    file'.chunks.slot i = file.chunks.slot i ∨
      ∃ plan c, CutCopy s call file answer i plan c ∧ file'.chunks.slot i = plan.targetChunkId := by
  cases is with
  | done nothing => exact .inl rfl
  | delayed plan c cuts inside holds works there target =>
    rw [file.chunks.slot_set _ inside]
    split
    next here =>
      subst here
      rcases target with ⟨-, eq⟩ | ⟨shared, other, operation⟩
      · exact .inl (eq.trans works)
      · exact .inr ⟨plan, c, ⟨rfl, rfl, cuts, holds, works, there, shared, operation,
          fun eq => other (eq.trans works.symm)⟩, rfl⟩
    · exact .inl rfl

/-- A shared chunk that the length ends in does not keep its slot. -/
theorem fileCount_eq_one (is : Accepted s call file answer file')
    (cuts : boundaryLength call.length ≠ 0) {i : Nat} (here : i = (boundaryIndex call.length).toNat)
    (holds : file.chunks.slot i ≠ 0) (kept : file'.chunks.slot i = file.chunks.slot i) {c : Chunk}
    (eq : s.chunks.chunkOf (file.chunks.slot i) = some c) : c.fileCount = 1 := by
  subst here
  cases is with
  | done nothing => exact absurd (nothing.resolve_left cuts) holds
  | delayed plan c' _ inside _ works eq' target =>
    rw [file.chunks.slot_set _ inside, if_pos rfl] at kept
    obtain rfl : c' = c := Option.some.inj (eq'.symm.trans eq)
    rcases target with ⟨single, -⟩ | ⟨-, other, -⟩
    · exact single
    · exact absurd (kept.trans works.symm) other

/-- Lengths whose indexes have 32 bits. -/
theorem lengthSet_of_le (is : Accepted s call file answer file')
    (le : call.length.toNat ≤ (2 ^ 32 - 1) * chunkSize) : LengthSet file call.length answer
      { file' with
        length := call.length
        chunks := file'.chunks.truncate (chunksOfLength call.length) } := by
  have count := chunksOfLength_toNat call.length
  have index := boundaryIndex_toNat call.length
  unfold chunkSize at le count index
  refine ⟨rfl, fun i whole => ?_, fun i starts ends => ?_, fun i beyond => ?_⟩
  · unfold chunkSize at whole
    rw [file'.chunks.slot_truncate, if_pos (by omega)]
    rcases is.slot i with eq | ⟨plan, c, copy, -⟩
    · exact eq
    · have here := copy.here
      omega
  · have starts' := starts
    unfold chunkSize at starts'
    rw [file'.chunks.slot_truncate, if_pos (by omega)]
    rcases is.slot i with eq | ⟨plan, c, copy, target⟩
    · exact .inl eq
    · exact .inr ⟨_, _, plan, copy.answers, copy.here.symm, boundaryLength_toNat call.length,
        copy.operation, copy.works, target⟩
  · unfold chunkSize at beyond
    rw [file'.chunks.slot_truncate, if_neg (by omega)]

/-- For greater lengths all slots of a table lie below the length. -/
theorem lengthSet_iff_of_lt (large : (2 ^ 32 - 1) * chunkSize < call.length.toNat) :
    LengthSet file call.length answer { file' with
          length := call.length
          chunks := file'.chunks.truncate (chunksOfLength call.length) } ↔
      ∀ i, (file'.chunks.truncate (chunksOfLength call.length)).slot i = file.chunks.slot i := by
  have last : ∀ (t : ChunkTable) (i : Nat), 2 ^ 32 - 1 ≤ i → t.slot i = 0 := fun t i far =>
    t.slot_of_le ((Nat.le_sub_one_of_lt t.fits).trans far)
  unfold chunkSize at large
  constructor
  · intro set i
    by_cases far : 2 ^ 32 - 1 ≤ i
    · rw [last _ i far, last _ i far]
    · refine set.whole i ?_
      unfold chunkSize
      omega
  · intro eq
    refine ⟨rfl, fun i _ => eq i, fun i _ _ => .inl (eq i), fun i beyond => ?_⟩
    unfold chunkSize at beyond
    exact last _ i (by omega)

theorem lengthSet_iff (is : Accepted s call file answer file') : LengthSet file call.length answer
        { file' with
          length := call.length
          chunks := file'.chunks.truncate (chunksOfLength call.length) } ↔
      s.LengthKept file call.length := by
  by_cases le : call.length.toNat ≤ (2 ^ 32 - 1) * chunkSize
  · exact ⟨fun _ => .inl le, fun _ => is.lengthSet_of_le le⟩
  rw [lengthSet_iff_of_lt (Nat.lt_of_not_le le), LengthKept, or_iff_right le,
    ← chunksOfLength_toNat, ← boundaryIndex_toNat, ← boundaryLength_toNat]
  have cuts : (boundaryLength call.length).toNat ≠ 0 ↔ boundaryLength call.length ≠ 0 := by
    rw [ne_eq, ne_eq, ← UInt64.toNat_inj]
    rfl
  rw [cuts]
  refine forall_congr' fun i => ?_
  rw [file'.chunks.slot_truncate]
  constructor
  · intro eq holds
    have below : i < (chunksOfLength call.length).toNat := by
      by_contra above
      rw [if_neg above] at eq
      exact holds eq.symm
    rw [if_pos below] at eq
    exact ⟨below, fun cuts here c => is.fileCount_eq_one cuts here holds eq⟩
  · intro kept
    rcases is.slot i with eq | ⟨plan, c, copy, -⟩
    · rw [eq]
      split
      · rfl
      next above =>
        by_contra holds
        exact above (kept fun zero => holds zero.symm).1
    · obtain ⟨-, single⟩ := kept copy.holds
      exact absurd (single copy.cuts copy.here c copy.there) copy.shared

end Accepted

/-- Setting a length that was accepted leaves the table exact if and only if the length is at most
2^32 - 1 chunks, or the file has no chunks that the low 32 bits of its indexes reach. -/
theorem setLength_exact_iff (s : FileStore) (indexed : s.chunks.Indexed) (call : TruncateCall)
    (file : FSNodeFile) (there : s.file call.inode = some file)
    (accepts : ∀ status, (s.trySetLength call).1 ≠ .refused status) (chunks : Registry) :
    (∃ after,
        ({ (s.trySetLength call).2 with chunks := chunks }.setLength call.inode call.length
          true).file call.inode = some after ∧
        LengthSet file call.length (s.trySetLength call).1 after) ↔
      s.LengthKept file call.length := by
  obtain ⟨file', there', is⟩ := accepted indexed there accepts
  rw [← is.lengthSet_iff]
  have result := @file_setLength { (s.trySetLength call).2 with chunks := chunks } call file' there'
  constructor
  · rintro ⟨after, found, set⟩
    obtain rfl := Option.some.inj (result.symm.trans found)
    exact set
  · exact fun set => ⟨_, result, set⟩

/-- A file of one chunk. -/
def withOneFile : FileStore :=
  let env : Environment :=
    { server := fun csid => some ⟨csid.toUInt32, 9422, 0x050800, false⟩
      time := 1000
      mergedGoal := fun _ => [⟨SliceType.kStandard, [1]⟩]
      redundancyLevel := 0
      useChunkserverSideChunkLock := false }
  { files := Finmap.singleton 5 ⟨.file, 1, 1000, ⟨[7], by decide⟩⟩
    chunks :=
      { env := env
        slots := [some (Chunk.updateStats env
          { ((Chunk.new 7 1).addFile env 1).1 with parts := [⟨1, .valid, 1, .standard, false⟩] })]
        lastchunkid := 0
        lastchunkptr := none
        nextChunkId := 8 } }

theorem indexed_withOneFile : withOneFile.chunks.Indexed := by
  have only : ∀ ptr c, withOneFile.chunks.chunk? ptr = some c → ptr = 0 ∧ c.chunkid = 7 := by
    intro ptr c there
    cases ptr with
    | zero =>
      obtain rfl := Option.some.inj there
      exact ⟨rfl, rfl⟩
    | succ ptr => cases there
  refine ⟨fun p q c d foundP foundQ _ _ => ?_, fun ptr last => ?_, fun _ => rfl,
    fun ptr c there => ?_, by decide⟩
  · rw [(only p c foundP).1, (only q d foundQ).1]
  · cases last
  · rw [(only ptr c there).2]
    decide

/-- The file is cut within its chunk. -/
theorem setLength_exact_iff_withOneFile :
    let call : TruncateCall := ⟨none, 5, 500, false, 0, false⟩
    (∃ plan, (withOneFile.trySetLength call).1 = .delayed 0 500 plan) ∧ ∃ after,
      ({ (withOneFile.trySetLength call).2 with chunks := withOneFile.chunks }.setLength call.inode
        call.length true).file call.inode = some after ∧
      LengthSet ⟨.file, 1, 1000, ⟨[7], by decide⟩⟩ call.length (withOneFile.trySetLength call).1
        after :=
  ⟨⟨_, rfl⟩, (setLength_exact_iff withOneFile indexed_withOneFile ⟨none, 5, 500, false, 0, false⟩ _
    rfl (fun _ refused => by cases refused) withOneFile.chunks).mpr (.inl (by decide))⟩

/-- A length of 2^32 chunks is accepted, and the file loses its only chunk. -/
theorem setLength_drops_chunk_below_length :
    let call : TruncateCall := ⟨none, 5, 0x400000000000000, false, 0, false⟩
    (withOneFile.trySetLength call).1 = .done ∧
      ¬ ∃ after, ((withOneFile.trySetLength call).2.setLength call.inode call.length
            true).file call.inode = some after ∧
          LengthSet ⟨.file, 1, 1000, ⟨[7], by decide⟩⟩ call.length .done after := by
  refine ⟨rfl, ?_⟩
  rintro ⟨after, found, set⟩
  have cut : after.chunks.slot 0 = 0 := by
    obtain rfl := Option.some.inj found
    rfl
  have kept := set.whole 0 (by decide)
  rw [cut] at kept
  exact absurd kept (by decide)

end FileStore

end LeilFS.Files
