import LeilFS.Locks.Grants
import LeilFS.Locks.Persistence
import LeilFS.Ids.Detention
import LeilFS.Nodes.Namespace
import LeilFS.Chunks.Versions
import LeilFS.Chunks.GoalChange
import LeilFS.Chunks.WritePlans
import LeilFS.Acl.AclLog
import LeilFS.Nodes.CaseFold
import LeilFS.Files.Append
import LeilFS.Nodes.LogNames
import LeilFS.Nodes.Paging
import LeilFS.Chunks.SliceCache
import LeilFS.Chunks.Worker
import LeilFS.Reading.NegativeCache
import LeilFS.Reading.PartLength
import LeilFS.Reading.Recovery
import LeilFS.Locks.Probe
import LeilFS.Reading.Executor
import LeilFS.Acl.ListsApart
import LeilFS.Acl.AclStorage
import LeilFS.Reading.ReadCache
import LeilFS.Uraft.Assertions
import LeilFS.Uraft.Terms
import LeilFS.Shadow.SetQuota
import LeilFS.Shadow.Replication
import LeilFS.Shadow.RestoreLine
import LeilFS.Serving.MakeSpace
import LeilFS.Serving.TaskManager
