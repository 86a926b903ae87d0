/-
Module: LeilFS.Files.FileStore
Purpose: The files of the master with their chunk tables, over the registry of chunks, and the
  operations that set their lengths.
Trusted boundary: none
-/
import LeilFS.Chunks.Events
import LeilFS.Files.ChunkTable
import LeilFS.Nodes.Node

namespace LeilFS.Files

open Chunks
open Nodes (InodeId)

/-!
Only what the operations on chunks read and write of a file is kept.  Sessions, permissions and
the kind of the node are a verdict that the caller brings along; so are exceeded quotas and the
random number of a new lock.
-/

/-- A file that has a name, one in the trash, and one that is only open. -/
inductive FileType where
  | file | trash | reserved
deriving Repr, DecidableEq

/-- [SPEC filesystem_node_types.h:213-249] -/
structure FSNodeFile where
  type : FileType
  goal : GoalId
  length : UInt64
  chunks : ChunkTable
deriving DecidableEq

structure FileStore where
  files : Finmap fun _ : InodeId => FSNodeFile
  chunks : Registry

namespace FileStore

def file (s : FileStore) (inode : InodeId) : Option FSNodeFile := s.files.lookup inode

def setFile (s : FileStore) (inode : InodeId) (file : FSNodeFile) : FileStore :=
  { s with files := s.files.insert inode file }

/-! ## Lengths -/

/-- What becomes of a request to set a length: it is refused, nothing has to wait, or the chunk
that the length ends in is truncated first, to a length of its own. -/
inductive TruncateAnswer where
  | refused (status : Status)
  | done
  | delayed (index : UInt32) (chunkLength : UInt64) (plan : ChunkMutationPlan)
deriving Repr, DecidableEq

/-- What a client asks for that sets a length. -/
structure TruncateCall where
  verdict : Option Status
  inode : InodeId
  length : UInt64
  denyTruncatingParity : Bool
  lockId : UInt32
  quotaExceeded : Bool
deriving Repr, DecidableEq

/-- [SPEC filesystem_operations.cc:1288-1360] -/
def trySetLength (s : FileStore) (call : TruncateCall) : TruncateAnswer × FileStore :=
  match call.verdict, s.file call.inode with
  | some status, _ => (.refused status, s)
  | none, none => (.refused .enoent, s)
  | none, some file =>
      let index := boundaryIndex call.length
      let id := file.chunks.get index
      if boundaryLength call.length ≠ 0 ∧ index < file.chunks.size ∧ 0 < id then
        let (plan, chunks) := s.chunks.multiTruncate id call.lockId file.goal
          (call.denyTruncatingParity && call.length < file.length) call.quotaExceeded
        if plan.status ≠ .ok then (.refused plan.status, { s with chunks := chunks })
        else
          (.delayed index (boundaryLength call.length) plan,
            { s with chunks := chunks }.setFile call.inode
              { file with chunks := file.chunks.set index plan.targetChunkId })
      else (.done, s)

/-- [SPEC filesystem_node.cc:1740-1779] -/
def setLength (s : FileStore) (inode : InodeId) (length : UInt64) (eraseFurtherChunks : Bool) :
    FileStore :=
  match s.file inode with
  | none => s
  | some file =>
      if eraseFurtherChunks then
        let chunks := chunksOfLength length
        { s with
          chunks := s.chunks.deleteFiles file.goal (file.chunks.live chunks.toNat) }.setFile inode
            { file with length := length, chunks := file.chunks.truncate chunks }
      else s.setFile inode { file with length := length }

end FileStore

end LeilFS.Files
