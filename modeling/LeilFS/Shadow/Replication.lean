/-
Module: LeilFS.Shadow.Replication
Purpose: A master and its shadows: registration, the changes that are sent, and what a shadow
  has applied.
Trusted boundary: none
-/
import LeilFS.Lib.StepSystem
import LeilFS.Shadow.OldChanges

namespace LeilFS.Shadow

open List

variable {α ι : Type*}

/-! ## The master's side -/

/-- How the master answers a request for a new metadata image [SPEC masterconn.cc:853-869]. -/
inductive DumpStatus where
  | ok
  | delayed
  | failed
deriving DecidableEq

/-- What a master sends to a shadow, apart from files. -/
inductive Packet (α : Type*) where
  | registerRefused
  | registerShadow (masterVersion replyVersion : ℕ)
  | metachangesLog (version : ℕ) (logstr : α)
  | forceLogRotate
  | changelogApplyError (status : DumpStatus)
deriving DecidableEq

/-- [SPEC saunafs_version.h:30-32] -/
def saunafsVersion (major minor micro : ℕ) : ℕ :=
  0x10000 * major + 0x100 * minor + micro

/-- The version of this program. -/
def SAUNAFS_VERSHEX : ℕ :=
  saunafsVersion 5 13 0

/-- A connection. Packets stay in the queue when they have been read by the other side, and the
entry stays when it is no longer listed. -/
structure MatomlservEntry (α : Type*) where
  listed : Bool
  version : ℕ
  /-- Version and metadata version in a registration that was not read yet. -/
  registration : Option (ℕ × ℕ)
  outputPackets : List (Packet α)
deriving DecidableEq

/-- Packets are sent in the order in which they are queued. -/
def MatomlservEntry.createPackets (entry : MatomlservEntry α) (packets : List (Packet α)) :
    MatomlservEntry α :=
  { entry with outputPackets := entry.outputPackets ++ packets }

/-- Only peers that are registered get what is broadcast. -/
def MatomlservEntry.broadcast (packet : Packet α) (entry : MatomlservEntry α) : MatomlservEntry α :=
  if entry.listed && 0 < entry.version then entry.createPackets [packet] else entry

/-- The version the master pretends to be at. -/
def replyVersion (blocks : List (OldChangesBlock α)) (metadataVersion shadowVersion : ℕ) : ℕ :=
  match blocks with
  | block :: _ =>
      if shadowVersion < metadataVersion ∧ block.minVersion ≤ shadowVersion then shadowVersion
      else metadataVersion
  | [] => metadataVersion

/-- A shadow registers: an old one is refused, another one is told the version that the master
pretends to be at and sent what it has missed since [SPEC matomlserv.cc:419-456]. -/
def MatomlservEntry.registerShadow (blocks : List (OldChangesBlock α)) (metadataVersion : ℕ)
    (entry : MatomlservEntry α) : MatomlservEntry α :=
  match entry.registration with
  | some (version, shadowVersion) =>
      if entry.listed then
        let entry := { entry with version := version, registration := none }
        if version < SAUNAFS_VERSHEX then entry.createPackets [.registerRefused]
        else
          let reply := replyVersion blocks metadataVersion shadowVersion
          -- The versions sent are above the one given.
          entry.createPackets (.registerShadow SAUNAFS_VERSHEX reply ::
            (sendOldChanges (reply - 1) false blocks).map fun change =>
              .metachangesLog change.version change.data)
      else entry
  | none => entry

/-! ## The shadow's side -/

/-- What the connection reads next, or that it is to be closed. -/
inductive Mode where
  | free
  | header
  | kill
deriving DecidableEq

/-- How far a shadow is in following its master. -/
inductive State where
  | none
  | synchronized
  | downloading
  | dumpRequestPending
  | limbo
deriving DecidableEq

/-- Metadata, as the changes that made them, and the version of the change to come. -/
structure Metadata (α : Type*) where
  applied : List (OldChangesEntry α)
  metadataVersion : ℕ
deriving DecidableEq

/-- A shadow, with its connection to the master and the versions that `restore` keeps. -/
structure MasterConn (α : Type*) where
  mode : Mode
  state : State
  /-- The number of the connection and of the packets read from it. -/
  sock : ℕ
  received : ℕ
  masterVersion : ℕ
  lastLogVersion : ℕ
  metadata : Option (Metadata α)
  nextFsVersion : ℕ
  currentFsVersion : ℕ
deriving DecidableEq

namespace MasterConn

/-- No version without metadata. -/
def getMetadataVersion (conn : MasterConn α) : ℕ :=
  (conn.metadata.map (·.metadataVersion)).getD 0

/-- The metadata are dropped, so that the next connection downloads them
[SPEC masterconn.cc:432-440]. -/
def forceMetadataDownload (conn : MasterConn α) : MasterConn α :=
  { conn with
    state := .none, metadata := none, nextFsVersion := 0, currentFsVersion := 0
    lastLogVersion := 0, mode := .kill }

/-- [SPEC masterconn.cc:442-446] -/
def requestMetadataDump (conn : MasterConn α) : MasterConn α :=
  { conn with state := .dumpRequestPending }

/-- A change is missing or cannot be applied [SPEC masterconn.cc:448-457]. -/
def handleChangelogApplyError (conn : MasterConn α) : MasterConn α :=
  if conn.masterVersion ≤ saunafsVersion 2 5 0 then conn.forceMetadataDownload
  else conn.requestMetadataDump

/-- The metadata version in the registration. -/
def registeredVersion (conn : MasterConn α) : ℕ :=
  if conn.state = .synchronized then conn.getMetadataVersion else 0

/-- The state in which a new connection is begun. -/
def onConnected (conn : MasterConn α) (sock : ℕ) : MasterConn α :=
  let conn := { conn with mode := .header, sock := sock, received := 0, masterVersion := 0 }
  if conn.lastLogVersion = 0 then { conn with state := .downloading }
  else if conn.state = .dumpRequestPending then conn.requestMetadataDump
  else conn

/-- A shadow in step with a master stays in step only when the two agree on the version
[SPEC masterconn.cc:479-502]. -/
def onRegistered (conn : MasterConn α) (masterVersion replyVersion : ℕ) : MasterConn α :=
  let conn := { conn with masterVersion := masterVersion }
  if conn.state = .synchronized ∧ conn.getMetadataVersion ≠ replyVersion then
    conn.forceMetadataDownload
  else conn

/-- Applies a change, if its line is fine; else the metadata that the failure leaves are
given. -/
def restoreLine (conn : MasterConn α) (change : OldChangesEntry α)
    (failure : Option (Option (Metadata α))) : Bool × MasterConn α :=
  match failure with
  | some left => (false, { conn with metadata := left })
  | none =>
      (true,
        { conn with
          metadata := conn.metadata.map fun metadata =>
            ⟨metadata.applied ++ [change], metadata.metadataVersion + 1⟩ })

/-- The first call takes its versions from the metadata. -/
def firstRestore (conn : MasterConn α) : MasterConn α :=
  if conn.currentFsVersion = 0 ∨ conn.nextFsVersion = 0 then
    { conn with
      nextFsVersion := conn.getMetadataVersion
      currentFsVersion := conn.getMetadataVersion - 1 }
  else conn

/-- A change is passed over when it is old, refused when one before it is missing, and else applied
[SPEC restore.cc:1364-1418]. -/
def restore (conn : MasterConn α) (change : OldChangesEntry α)
    (failure : Option (Option (Metadata α))) : Bool × MasterConn α :=
  let conn := conn.firstRestore
  if change.version < conn.currentFsVersion then (true, conn)
  else if conn.nextFsVersion ≤ change.version ∧ change.version ≠ conn.currentFsVersion then
    if conn.currentFsVersion + 1 < change.version then (false, conn)
    else
      let (done, conn) := conn.restoreLine change failure
      if done then
        let conn := { conn with nextFsVersion := conn.getMetadataVersion }
        if change.version + 1 ≠ conn.nextFsVersion then (false, conn)
        else (true, { conn with currentFsVersion := change.version })
      else (false, conn)
  else (true, { conn with currentFsVersion := change.version })

/-- A change arrives: it must be the next one, and a shadow that is synchronized applies it
[SPEC masterconn.cc:504-558]. -/
def metachangesLog (conn : MasterConn α) (change : OldChangesEntry α)
    (failure : Option (Option (Metadata α))) : MasterConn α :=
  if 0 < conn.lastLogVersion ∧ change.version ≠ conn.lastLogVersion + 1 then
    conn.handleChangelogApplyError
  else if conn.state = .synchronized then
    let (done, conn) := conn.restore change failure
    if done then { conn with lastLogVersion := change.version }
    else conn.handleChangelogApplyError
  else { conn with lastLogVersion := change.version }

/-- [SPEC masterconn.cc:853-869] -/
def changelogApplyError (conn : MasterConn α) (status : DumpStatus) : MasterConn α :=
  if status = .ok then conn.forceMetadataDownload else { conn with state := .limbo }

/-- [SPEC masterconn.cc:880-918] -/
def gotPacket (conn : MasterConn α) (failure : Option (Option (Metadata α))) :
    Packet α → MasterConn α
  | .registerRefused => { conn with mode := .kill }
  | .registerShadow masterVersion replyVersion => conn.onRegistered masterVersion replyVersion
  | .metachangesLog version logstr => conn.metachangesLog ⟨version, logstr⟩ failure
  | .forceLogRotate => conn
  | .changelogApplyError status => conn.changelogApplyError status

/-- The last file has been downloaded, and the metadata are loaded, or cannot be. The versions
that `restore` keeps come from the changelogs that were read. -/
def downloaded (conn : MasterConn α) (loaded : Option (Metadata α))
    (nextFsVersion currentFsVersion : ℕ) : MasterConn α :=
  if conn.state = .downloading then
    let conn :=
      { conn with
        metadata := loaded, nextFsVersion := nextFsVersion, currentFsVersion := currentFsVersion }
    if loaded.isSome then
      { conn with state := .synchronized, lastLogVersion := conn.getMetadataVersion - 1 }
    else conn.handleChangelogApplyError
  else conn

end MasterConn

/-! ## Together -/

/-- One master with all that it ever logged, and shadows. -/
structure Replication (ι α : Type*) where
  history : List α
  oldChangesBlocks : List (OldChangesBlock α)
  changelogSecondsToRemember : UInt16
  time : UInt32
  entries : List (MatomlservEntry α)
  shadow : ι → MasterConn α

/-- What can happen to a master and its shadows, in any order. -/
inductive Event (ι α : Type*) where
  | change (logstr : α)
  | rotate
  | reload (secondsToRemember : UInt16)
  | passTime (now : UInt32)
  | register (sock : ℕ)
  | answerDumpRequest (sock : ℕ) (status : DumpStatus)
  | close (sock : ℕ)
  | connect (i : ι) (version : ℕ)
  | receive (i : ι) (failure : Option (Option (Metadata α)))
  | downloaded (i : ι) (loaded : Option (Metadata α)) (nextFsVersion currentFsVersion : ℕ)
  | retryDumpRequest (i : ι)
  | disconnect (i : ι)

namespace Replication

/-- The version of the change to come. -/
def metadataVersion (r : Replication ι α) : ℕ :=
  r.history.length + 1

/-- A master that has just loaded its metadata, with shadows that have not connected yet. -/
def init (history : List α) (secondsToRemember : UInt16) : Replication ι α where
  history := history
  oldChangesBlocks := []
  changelogSecondsToRemember := min secondsToRemember 3600
  time := 0
  entries := []
  shadow := fun _ => ⟨.free, .none, 0, 0, 0, 0, none, 0, 0⟩

variable [DecidableEq ι]

def setShadow (r : Replication ι α) (i : ι) (conn : MasterConn α) : Replication ι α :=
  { r with shadow := Function.update r.shadow i conn }

def step (r : Replication ι α) : Event ι α → Replication ι α
  | .change logstr =>
      { r with
        history := r.history ++ [logstr]
        oldChangesBlocks := storeLogstring r.changelogSecondsToRemember r.time r.metadataVersion
          logstr r.oldChangesBlocks
        entries := r.entries.map
          (MatomlservEntry.broadcast (.metachangesLog r.metadataVersion logstr)) }
  | .rotate => { r with entries := r.entries.map (MatomlservEntry.broadcast .forceLogRotate) }
  | .reload secondsToRemember =>
      { r with changelogSecondsToRemember := min secondsToRemember 3600 }
  | .passTime now => { r with time := now }
  | .register sock =>
      { r with
        entries := r.entries.modify sock
          (MatomlservEntry.registerShadow r.oldChangesBlocks r.metadataVersion) }
  | .answerDumpRequest sock status =>
      { r with
        entries := r.entries.modify sock (·.createPackets [.changelogApplyError status]) }
  | .close sock =>
      { r with entries := r.entries.modify sock fun entry => { entry with listed := false } }
  | .connect i version =>
      if (r.shadow i).mode = .free then
        let entry : MatomlservEntry α :=
          ⟨true, 0, some (version, (r.shadow i).registeredVersion), []⟩
        { r with entries := r.entries ++ [entry] }.setShadow i
          ((r.shadow i).onConnected r.entries.length)
      else r
  | .receive i failure =>
      let conn := r.shadow i
      if conn.mode = .header then
        match r.entries[conn.sock]?.bind (·.outputPackets[conn.received]?) with
        | some packet =>
            r.setShadow i ({ conn with received := conn.received + 1 }.gotPacket failure packet)
        | none => r
      else r
  | .downloaded i loaded nextFsVersion currentFsVersion =>
      if (r.shadow i).mode = .header then
        r.setShadow i ((r.shadow i).downloaded loaded nextFsVersion currentFsVersion)
      else r
  | .retryDumpRequest i =>
      if (r.shadow i).mode = .header ∧ (r.shadow i).state = .limbo then
        r.setShadow i (r.shadow i).requestMetadataDump
      else r
  | .disconnect i => r.setShadow i { r.shadow i with mode := .free }

end Replication

/-! ## What a connection carries -/

/-- The version in the last registration reply, with the changes after it. -/
def Packet.after : Option (ℕ × List (OldChangesEntry α)) → Packet α →
    Option (ℕ × List (OldChangesEntry α))
  | _, .registerShadow _ replyVersion => some (replyVersion, [])
  | some (reply, sent), .metachangesLog version logstr => some (reply, sent ++ [⟨version, logstr⟩])
  | sent, _ => sent

/-- What was sent on a connection since the registration was answered, with the version that it was
answered with. -/
def sinceReply (packets : List (Packet α)) : Option (ℕ × List (OldChangesEntry α)) :=
  packets.foldl Packet.after none

theorem sinceReply_append (first second : List (Packet α)) :
    sinceReply (first ++ second) = second.foldl Packet.after (sinceReply first) :=
  foldl_append

theorem foldl_after_changes (reply : ℕ) (sent more : List (OldChangesEntry α)) :
    (more.map fun change => Packet.metachangesLog change.version change.data).foldl Packet.after
      (some (reply, sent)) = some (reply, sent ++ more) := by
  induction more generalizing sent with
  | nil => simp
  | cons change more ih =>
    rw [map_cons]
    simpa [Packet.after] using ih (sent ++ [change])

/-- What was sent since a reply is the history from its version on; a listed connection has all
of it. -/
structure MatomlservEntry.Follows (history : List α) (entry : MatomlservEntry α) (reply : ℕ)
    (sent : List (OldChangesEntry α)) : Prop where
  registered : 0 < entry.version
  start : 1 ≤ reply
  reached : reply ≤ history.length + 1
  consecutive : sent <+: (changes history).drop (reply - 1)
  complete : entry.listed = true → sent = (changes history).drop (reply - 1)

structure MatomlservEntry.Sound (history : List α) (entry : MatomlservEntry α) : Prop where
  known : ∀ version logstr, .metachangesLog version logstr ∈ entry.outputPackets →
    ⟨version, logstr⟩ ∈ changes history
  fresh : entry.registration.isSome → sinceReply entry.outputPackets = none
  follows : ∀ reply sent, sinceReply entry.outputPackets = some (reply, sent) →
    entry.Follows history reply sent

namespace MatomlservEntry

variable {history : List α} {entry : MatomlservEntry α}

/-- A change that is logged is the last of those missed. -/
theorem drop_changes_concat {reply : ℕ} (reached : reply ≤ history.length + 1) (logstr : α) :
    (changes (history ++ [logstr])).drop (reply - 1) =
      (changes history).drop (reply - 1) ++ [⟨history.length + 1, logstr⟩] := by
  rw [changes_concat, drop_append_of_le_length]
  rw [length_changes]
  omega

/-- Packets that are neither changes nor replies do not matter. -/
theorem Sound.createPackets (sound : entry.Sound history) {packet : Packet α}
    (noChange : ∀ version logstr, packet ≠ .metachangesLog version logstr)
    (noReply : ∀ masterVersion replyVersion, packet ≠ .registerShadow masterVersion replyVersion) :
    (entry.createPackets [packet]).Sound history := by
  have eq : sinceReply (entry.createPackets [packet]).outputPackets =
      sinceReply entry.outputPackets := by
    rw [MatomlservEntry.createPackets, sinceReply_append, foldl_cons]
    cases packet with
    | registerShadow masterVersion replyVersion =>
      exact absurd rfl (noReply masterVersion replyVersion)
    | metachangesLog version logstr => exact absurd rfl (noChange version logstr)
    | registerRefused => cases sinceReply entry.outputPackets <;> rfl
    | forceLogRotate => cases sinceReply entry.outputPackets <;> rfl
    | changelogApplyError status => cases sinceReply entry.outputPackets <;> rfl
  constructor
  · intro version logstr mem
    rcases mem_append.mp mem with prev | added
    · exact sound.known version logstr prev
    · exact absurd (mem_singleton.mp added).symm (noChange version logstr)
  · exact fun waiting => eq.trans (sound.fresh waiting)
  · intro reply sent since
    obtain ⟨registered, start, reached, consecutive, complete⟩ :=
      sound.follows reply sent (eq ▸ since)
    exact ⟨registered, start, reached, consecutive, complete⟩

theorem Sound.broadcast_rotate (sound : entry.Sound history) :
    (entry.broadcast .forceLogRotate).Sound history := by
  unfold MatomlservEntry.broadcast
  split
  · exact sound.createPackets (by simp) (by simp)
  · exact sound

theorem Sound.broadcast_change (sound : entry.Sound history) (logstr : α) :
    (entry.broadcast (.metachangesLog (history.length + 1) logstr)).Sound
      (history ++ [logstr]) := by
  unfold MatomlservEntry.broadcast
  split
  next isRegistered =>
    have since : sinceReply (entry.createPackets
        [.metachangesLog (history.length + 1) logstr]).outputPackets =
        (sinceReply entry.outputPackets).map fun (reply, sent) =>
          (reply, sent ++ [⟨history.length + 1, logstr⟩]) := by
      rw [MatomlservEntry.createPackets, sinceReply_append, foldl_cons]
      cases sinceReply entry.outputPackets <;> rfl
    constructor
    · intro version text mem
      rw [changes_concat]
      rcases mem_append.mp mem with prev | added
      · exact mem_append_left _ (sound.known version text prev)
      · cases mem_singleton.mp added
        simp
    · exact fun waiting => by rw [since, sound.fresh waiting]; rfl
    · intro reply sent found
      rw [since, Option.map_eq_some_iff] at found
      obtain ⟨⟨reply, old⟩, prev, eq⟩ := found
      cases eq
      obtain ⟨registered, start, reached, -, complete⟩ := sound.follows reply old prev
      have all : old ++ [⟨history.length + 1, logstr⟩] =
          (changes (history ++ [logstr])).drop (reply - 1) := by
        rw [drop_changes_concat reached,
          complete (by simp only [Bool.and_eq_true] at isRegistered; exact isRegistered.1)]
      refine ⟨registered, start, ?_, ?_, fun _ => all⟩
      · rw [length_append]
        omega
      · exact all ▸ prefix_rfl
  next notRegistered =>
    constructor
    · intro version text mem
      rw [changes_concat]
      exact mem_append_left _ (sound.known version text mem)
    · exact sound.fresh
    · intro reply sent found
      obtain ⟨registered, start, reached, consecutive, -⟩ := sound.follows reply sent found
      refine ⟨registered, start, ?_, ?_, ?_⟩
      · rw [length_append]
        omega
      · rw [drop_changes_concat reached]
        exact consecutive.trans (prefix_append _ _)
      · intro listed
        simp [listed, registered] at notRegistered

variable {blocks : List (OldChangesBlock α)}

/-- The reply is a version from which on the master has everything. -/
theorem replyVersion_spec (h : Remembers history blocks) (shadowVersion : ℕ) :
    1 ≤ replyVersion blocks (history.length + 1) shadowVersion ∧
      replyVersion blocks (history.length + 1) shadowVersion ≤ history.length + 1 ∧
      (history.length < replyVersion blocks (history.length + 1) shadowVersion ∨
        ∃ block, blocks.head? = some block ∧
          block.minVersion ≤ replyVersion blocks (history.length + 1) shadowVersion) := by
  cases blocks with
  | nil => simp [replyVersion]
  | cons block rest =>
    unfold replyVersion
    dsimp only
    split
    next pretends =>
      obtain ⟨first, head, version⟩ :=
        Option.map_eq_some_iff.mp (h.begins block (by simp))
      have listed : first ∈ flat (block :: rest) := by
        exact mem_append_left _ (mem_of_mem_head? head)
      have pos := (take_concat_of_mem (h.tail.subset listed)).1
      exact ⟨by omega, pretends.1.le, .inr ⟨block, rfl, pretends.2⟩⟩
    · exact ⟨by omega, le_rfl, .inl (Nat.lt_succ_self _)⟩

theorem Sound.registerShadow (sound : entry.Sound history) (h : Remembers history blocks) :
    (entry.registerShadow blocks (history.length + 1)).Sound history := by
  unfold MatomlservEntry.registerShadow
  split
  next version shadowVersion waiting =>
    split
    · -- Nothing was sent since a reply, for there was none.
      have nothing : sinceReply entry.outputPackets = none := sound.fresh (by simp [waiting])
      have read : ({ entry with version := version, registration := none } :
          MatomlservEntry α).Sound history :=
        ⟨sound.known, by simp, fun reply sent since => by simp [nothing] at since⟩
      dsimp only
      split
      · exact read.createPackets (by simp) (by simp)
      next current =>
        obtain ⟨start, reached, kept⟩ := replyVersion_spec h shadowVersion
        have sentAll := h.sendOldChanges start kept
        rw [sentAll]
        constructor
        · intro version logstr mem
          rcases mem_append.mp mem with prev | added
          · exact sound.known version logstr prev
          rcases mem_cons.mp added with isReply | old
          · cases isReply
          · obtain ⟨change, listed, eq⟩ := mem_map.mp old
            cases eq
            exact mem_of_mem_drop listed
        · simp [MatomlservEntry.createPackets]
        · intro reply' sent since
          simp only [MatomlservEntry.createPackets, sinceReply_append, foldl_cons,
            Packet.after, foldl_after_changes, Option.some.injEq] at since
          obtain ⟨rfl, rfl⟩ := since
          refine ⟨?_, start, reached, prefix_rfl, fun _ => rfl⟩
          have : 0 < SAUNAFS_VERSHEX := by decide
          exact lt_of_lt_of_le this (not_lt.mp current)
    · exact sound
  · exact sound

theorem Sound.close (sound : entry.Sound history) :
    ({ entry with listed := false } : MatomlservEntry α).Sound history := by
  refine ⟨sound.known, sound.fresh, fun reply sent since => ?_⟩
  obtain ⟨registered, start, reached, consecutive, -⟩ := sound.follows reply sent since
  exact ⟨registered, start, reached, consecutive, by simp⟩

end MatomlservEntry

/-! ## What a shadow has applied -/

/-- Metadata that hold the changes below their version. -/
structure Metadata.Holds (history : List α) (metadata : Metadata α) : Prop where
  start : 1 ≤ metadata.metadataVersion
  reached : metadata.metadataVersion ≤ history.length + 1
  applied : metadata.applied = (changes history).take (metadata.metadataVersion - 1)

instance [DecidableEq α] (history : List α) (metadata : Metadata α) :
    Decidable (metadata.Holds history) :=
  decidable_of_iff
    (1 ≤ metadata.metadataVersion ∧ metadata.metadataVersion ≤ history.length + 1 ∧
      metadata.applied = (changes history).take (metadata.metadataVersion - 1))
    ⟨fun ⟨start, reached, applied⟩ => ⟨start, reached, applied⟩,
      fun ⟨start, reached, applied⟩ => ⟨start, reached, applied⟩⟩

theorem Metadata.Holds.concat {history : List α} {metadata : Metadata α}
    (h : metadata.Holds history) (logstr : α) : metadata.Holds (history ++ [logstr]) := by
  obtain ⟨start, reached, applied⟩ := h
  refine ⟨start, ?_, ?_⟩
  · rw [length_append]
    omega
  · rw [applied, changes_concat, take_append_of_le_length]
    rw [length_changes]
    omega

namespace MasterConn

variable {history : List α} {conn : MasterConn α}

def Sound (history : List α) (conn : MasterConn α) : Prop :=
  conn.state = .synchronized → ∃ metadata, conn.metadata = some metadata ∧ metadata.Holds history

theorem handleChangelogApplyError_sound : conn.handleChangelogApplyError.Sound history := by
  unfold handleChangelogApplyError
  split <;> simp [Sound, forceMetadataDownload, requestMetadataDump]

section

variable (sound : conn.Sound history)
include sound

theorem firstRestore_sound : conn.firstRestore.Sound history := by
  unfold firstRestore
  split
  · exact sound
  · exact sound

/-- A change that is applied without an error is the next one. -/
theorem restore_sound {change : OldChangesEntry α} (mem : change ∈ changes history)
    {failure : Option (Option (Metadata α))} (done : (conn.restore change failure).1 = true) :
    (conn.restore change failure).2.Sound history := by
  replace sound := firstRestore_sound sound
  unfold restore restoreLine at done ⊢
  generalize conn.firstRestore = conn at *
  by_cases early : change.version < conn.currentFsVersion
  · simpa only [if_pos early] using sound
  simp only [if_neg early] at done ⊢
  by_cases new : conn.nextFsVersion ≤ change.version ∧ change.version ≠ conn.currentFsVersion
  · simp only [if_pos new] at done ⊢
    by_cases hole : conn.currentFsVersion + 1 < change.version
    · simp [hole] at done
    simp only [if_neg hole] at done ⊢
    cases failure with
    | some left => simp at done
    | none =>
      simp only [if_true] at done ⊢
      split at done
      · simp at done
      rename_i fits
      simp only [if_neg fits]
      intro synchronized
      obtain ⟨metadata, loaded, start, reached, applied⟩ := sound synchronized
      simp only [getMetadataVersion, loaded, Option.map_some, Option.getD_some] at fits
      obtain ⟨-, inside, whole⟩ := take_concat_of_mem mem
      have next : metadata.metadataVersion = change.version := by omega
      refine ⟨⟨metadata.applied ++ [change], metadata.metadataVersion + 1⟩, by rw [loaded]; rfl,
        by simp, by simpa [next] using inside, ?_⟩
      rw [applied, next]
      exact whole
  · simp only [if_neg new]
    exact sound

theorem metachangesLog_sound {change : OldChangesEntry α}
    (mem : change ∈ changes history) (failure : Option (Option (Metadata α))) :
    (conn.metachangesLog change failure).Sound history := by
  unfold metachangesLog
  split
  · exact handleChangelogApplyError_sound
  split
  · dsimp only
    split
    next done => exact restore_sound sound mem done
    · exact handleChangelogApplyError_sound
  · exact sound

theorem gotPacket_sound {packet : Packet α}
    (known : ∀ version logstr, packet = .metachangesLog version logstr →
      ⟨version, logstr⟩ ∈ changes history)
    (failure : Option (Option (Metadata α))) : (conn.gotPacket failure packet).Sound history := by
  cases packet with
  | registerRefused => exact sound
  | registerShadow masterVersion replyVersion =>
    change (conn.onRegistered masterVersion replyVersion).Sound history
    unfold onRegistered
    dsimp only
    split
    · simp [Sound, forceMetadataDownload]
    · exact sound
  | metachangesLog version logstr =>
    exact metachangesLog_sound sound (known version logstr rfl) failure
  | forceLogRotate => exact sound
  | changelogApplyError status =>
    change (conn.changelogApplyError status).Sound history
    unfold changelogApplyError
    split <;> simp [Sound, forceMetadataDownload]

theorem onConnected_sound (sock : ℕ) : (conn.onConnected sock).Sound history := by
  unfold onConnected
  dsimp only
  split
  · simp [Sound]
  split
  · simp [Sound, requestMetadataDump]
  · exact sound

theorem downloaded_sound {loaded : Option (Metadata α)}
    (holds : ∀ metadata ∈ loaded, metadata.Holds history) (nextFsVersion currentFsVersion : ℕ) :
    (conn.downloaded loaded nextFsVersion currentFsVersion).Sound history := by
  unfold downloaded
  split
  · split
    next isLoaded =>
      obtain ⟨metadata, rfl⟩ := Option.isSome_iff_exists.mp isLoaded
      exact fun _ => ⟨metadata, rfl, holds metadata rfl⟩
    · exact handleChangelogApplyError_sound
  · exact sound

end

end MasterConn

/-! ## Runs -/

namespace Replication

/-- What is downloaded loads as the changes below its version. -/
def Loads (r : Replication ι α) : Event ι α → Prop
  | .downloaded _ loaded _ _ => ∀ metadata ∈ loaded, metadata.Holds r.history
  | _ => True

instance [DecidableEq α] (r : Replication ι α) (event : Event ι α) : Decidable (r.Loads event) := by
  cases event <;> unfold Loads <;> infer_instance

/-- The old changes that are remembered, the connections and the shadows agree with the history. -/
structure Sound (r : Replication ι α) : Prop where
  remembers : Remembers r.history r.oldChangesBlocks
  entries : ∀ entry ∈ r.entries, entry.Sound r.history
  shadows : ∀ i, (r.shadow i).Sound r.history

theorem sound_init (history : List α) (secondsToRemember : UInt16) :
    (init history secondsToRemember : Replication ι α).Sound where
  remembers := remembers_nil history
  entries := by simp [init]
  shadows := by simp [init, MasterConn.Sound]

/-- What holds of all entries holds after one has changed. -/
theorem mem_modify {entries : List (MatomlservEntry α)} {sock : ℕ}
    {f : MatomlservEntry α → MatomlservEntry α} {P : MatomlservEntry α → Prop}
    (all : ∀ entry ∈ entries, P entry) (kept : ∀ entry, P entry → P (f entry)) :
    ∀ entry ∈ entries.modify sock f, P entry := by
  intro entry mem
  obtain ⟨i, at_⟩ := mem_iff_getElem?.mp mem
  rw [getElem?_modify, Option.map_eq_map, Option.map_eq_some_iff] at at_
  obtain ⟨prev, found, rfl⟩ := at_
  have sound := all prev (mem_of_getElem? found)
  split
  · exact kept prev sound
  · exact sound

variable [DecidableEq ι]

theorem Sound.setShadow {r : Replication ι α} (sound : r.Sound) (i : ι) {conn : MasterConn α}
    (kept : conn.Sound r.history) : (r.setShadow i conn).Sound where
  remembers := sound.remembers
  entries := sound.entries
  shadows := by
    intro j
    rcases eq_or_ne j i with rfl | other
    · simpa [Replication.setShadow] using kept
    · simpa [Replication.setShadow, other] using sound.shadows j

/-- One step lemma for the invariant: every event that loads only what the history holds keeps it.
-/
theorem Sound.step {r : Replication ι α} (sound : r.Sound) {event : Event ι α}
    (loads : r.Loads event) : (r.step event).Sound := by
  obtain ⟨remembers, entries, shadows⟩ := sound
  cases event with
  | change logstr =>
    refine ⟨remembers.storeLogstring _ _ _, ?_, ?_⟩
    · intro entry mem
      obtain ⟨prev, listed, rfl⟩ := mem_map.mp mem
      exact (entries prev listed).broadcast_change logstr
    · intro i synchronized
      obtain ⟨metadata, loaded, holds⟩ := shadows i synchronized
      exact ⟨metadata, loaded, holds.concat logstr⟩
  | rotate =>
    refine ⟨remembers, ?_, shadows⟩
    intro entry mem
    obtain ⟨prev, listed, rfl⟩ := mem_map.mp mem
    exact (entries prev listed).broadcast_rotate
  | reload secondsToRemember => exact ⟨remembers, entries, shadows⟩
  | passTime now => exact ⟨remembers, entries, shadows⟩
  | register sock =>
    exact ⟨remembers, mem_modify entries fun _ sound => sound.registerShadow remembers, shadows⟩
  | answerDumpRequest sock status =>
    exact ⟨remembers, mem_modify entries fun _ sound => sound.createPackets (by simp) (by simp),
      shadows⟩
  | close sock => exact ⟨remembers, mem_modify entries fun _ sound => sound.close, shadows⟩
  | connect i version =>
    unfold Replication.step
    dsimp only
    split
    · refine Sound.setShadow (r := { r with entries := r.entries ++ [_] })
        ⟨remembers, ?_, shadows⟩ i (MasterConn.onConnected_sound (shadows i) _)
      intro entry mem
      rcases mem_append.mp mem with prev | new
      · exact entries entry prev
      · obtain rfl := mem_singleton.mp new
        exact ⟨by simp, fun _ => rfl, fun reply sent since => by simp [sinceReply] at since⟩
    · exact ⟨remembers, entries, shadows⟩
  | receive i failure =>
    unfold Replication.step
    dsimp only
    split
    · split
      next packet found =>
        have read : ({ r.shadow i with received := (r.shadow i).received + 1 } :
            MasterConn α).Sound r.history := shadows i
        refine Sound.setShadow ⟨remembers, entries, shadows⟩ i
          (MasterConn.gotPacket_sound read ?_ failure)
        rintro version logstr rfl
        obtain ⟨entry, listed, queued⟩ := Option.bind_eq_some_iff.mp found
        exact (entries entry (mem_of_getElem? listed)).known version logstr (mem_of_getElem? queued)
      · exact ⟨remembers, entries, shadows⟩
    · exact ⟨remembers, entries, shadows⟩
  | downloaded i loaded nextFsVersion currentFsVersion =>
    unfold Replication.step
    dsimp only
    split
    · exact Sound.setShadow ⟨remembers, entries, shadows⟩ i
        (MasterConn.downloaded_sound (shadows i) loads nextFsVersion currentFsVersion)
    · exact ⟨remembers, entries, shadows⟩
  | retryDumpRequest i =>
    unfold Replication.step
    dsimp only
    split
    · exact Sound.setShadow ⟨remembers, entries, shadows⟩ i
        (by simp [MasterConn.Sound, MasterConn.requestMetadataDump])
    · exact ⟨remembers, entries, shadows⟩
  | disconnect i => exact Sound.setShadow ⟨remembers, entries, shadows⟩ i (shadows i)

/-- The changes sent after a registration reply are those of the consecutive versions from the
reply's on, and a synchronized shadow has applied the changes below its version in order. -/
theorem synchronized_history (history : List α) (secondsToRemember : UInt16)
    {events : List (Event ι α)} {r : Replication ι α}
    (along : StepSystem.Along step Loads (init history secondsToRemember) events)
    (reached : StepSystem.run step (init history secondsToRemember) events = r) :
    (∀ entry ∈ r.entries, ∀ reply sent, sinceReply entry.outputPackets = some (reply, sent) →
      sent.map (·.version) = range' reply sent.length ∧
        sent <+: (changes r.history).drop (reply - 1) ∧
        (entry.listed = true → sent = (changes r.history).drop (reply - 1))) ∧
      ∀ i, (r.shadow i).state = .synchronized → ∃ metadata, (r.shadow i).metadata = some metadata ∧
        metadata.applied = (changes r.history).take (metadata.metadataVersion - 1) ∧
        metadata.metadataVersion ≤ r.metadataVersion := by
  have sound : r.Sound := reached ▸ StepSystem.invariant_run
    (fun _ _ sound loads => sound.step loads) (sound_init history secondsToRemember) along
  constructor
  · intro entry member reply sent since
    obtain ⟨-, start, reachedReply, consecutive, complete⟩ :=
      (sound.entries entry member).follows reply sent since
    refine ⟨?_, consecutive, complete⟩
    rw [version_of_initial_drop consecutive, Nat.sub_add_cancel start]
  · intro i synchronized
    obtain ⟨metadata, loaded, holds⟩ := sound.shadows i synchronized
    exact ⟨metadata, loaded, holds.applied, holds.reached⟩

/-- A shadow downloads the metadata, follows one change, loses the connection, comes back after
two more and receives the first of them. -/
def comesBack : List (Event Unit String) :=
  [.connect () SAUNAFS_VERSHEX, .register 0, .receive () none,
    .downloaded () (some ⟨[⟨1, "a"⟩], 2⟩) 0 0, .change "b", .receive () none, .disconnect (),
    .change "c", .change "d", .connect () SAUNAFS_VERSHEX, .register 1, .receive () none,
    .receive () none]

theorem synchronized_history_comesBack :
    ((StepSystem.run step (init ["a"] 600) comesBack).shadow ()).state = .synchronized ∧
      ((StepSystem.run step (init ["a"] 600) comesBack).entries.map
        fun entry => sinceReply entry.outputPackets) =
          [some (2, [⟨2, "b"⟩, ⟨3, "c"⟩, ⟨4, "d"⟩]), some (3, [⟨3, "c"⟩, ⟨4, "d"⟩])] ∧
      ∃ metadata,
        ((StepSystem.run step (init ["a"] 600) comesBack).shadow ()).metadata = some metadata ∧
          metadata.applied =
            (changes (StepSystem.run step (init ["a"] 600) comesBack).history).take
              (metadata.metadataVersion - 1) ∧
          metadata.metadataVersion ≤
            (StepSystem.run step (init ["a"] 600) comesBack).metadataVersion := by
  have along : StepSystem.Along step Loads (init ["a"] 600) comesBack := by decide
  have synchronized :
      ((StepSystem.run step (init ["a"] 600) comesBack).shadow ()).state = .synchronized := by
    decide
  exact ⟨synchronized, by decide, (synchronized_history ["a"] 600 along rfl).2 () synchronized⟩

end Replication

end LeilFS.Shadow
