import Mathlib.Data.List.AList

/- The staging area of a volume and its syncs (`volume.go`), one definition per
   critical section of `stagingMu`.

   `WriteFile` stages chunks. A sync takes a snapshot of the staged chunks, sets
   `syncInProgress`, releases the mutex, uploads the packs, commits the snapshot
   to the metadata and calls `finishSync`, which drops what was committed and
   clears the flag. Syncs are started by a blocking `FsyncWithEpoch`, by the two
   timers, by `openBarrier` and by `FlushToBackend`. A call that finds nothing to
   sync releases the mutex as well and calls `finishSync` too, to answer the
   waiters.

   A staged chunk carries the number of its staging (`stamp`), which the code does
   not have. Pack files, their upload and eviction are left out, as are the staged
   sizes and times, the positions that are reported, and the epoch. -/
namespace InClusterStorage.Controller

/-- A chunk in a pack; within a pack the entry is found by its content. -/
structure StagedChunkReference where
  packID : Nat
  data : List UInt8
  deriving DecidableEq, Repr

structure StagedChunk where
  reference : StagedChunkReference
  /-- the number of the staging -/
  stamp : Nat
  deriving DecidableEq, Repr

/-- Staged chunks by inode and index. -/
abbrev StagedChunks := AList fun _ : Nat × Nat => StagedChunk

abbrev StagedEntry := (_ : Nat × Nat) × StagedChunk

inductive SyncTrigger where
  | unspecified
  | periodic
  | close
  deriving DecidableEq, Repr

/-- Where a sync, or a wait for one, fails. -/
inductive SyncError where
  | sealPack
  | upload
  | append
  | commit
  | flush
  | cancelled
  deriving DecidableEq, Repr

inductive TimerKind where
  | coalesce
  | close
  deriving DecidableEq, Repr

inductive TimerState where
  | armed
  | fired
  | stopped
  deriving DecidableEq, Repr

structure Timer where
  kind : TimerKind
  state : TimerState
  deriving DecidableEq, Repr

/-- A call that waits for a sync, and the channel it listens on. -/
structure SyncWaiter where
  seq : Nat
  inodeID : Nat
  ch : Nat
  deriving DecidableEq, Repr

/-- What `stagingMu` protects. -/
structure Staging where
  /-- the stream replicates to permanent storage -/
  requirePermanent : Bool
  stagingSeq : Nat := 0
  stagedChunks : StagedChunks := ∅
  activePack : Option Nat := none
  nextPackID : Nat := 0
  lastSyncError : AList (fun _ : Nat => SyncError) := ∅
  /-- the timers ever made -/
  timers : List Timer := []
  coalesceTimer : Option Nat := none
  coalesceWaiters : List SyncWaiter := []
  closeTimer : Option Nat := none
  /-- `none` is the nil map -/
  closeInodes : Option (List Nat) := none
  syncingInodes : List Nat := []
  syncInProgress : Bool := false
  /-- the results sent, by channel -/
  answered : List (Nat × Option SyncError) := []
  /-- the number of the next staging -/
  stagings : Nat := 0

/-- A sync between its snapshot and `finishSync`. -/
structure Sync where
  snapshotSeq : Nat
  snapshotChunks : List StagedEntry := []
  /-- `none` is the nil map: all inodes -/
  inodeFilter : Option (List Nat)
  deriving DecidableEq, Repr

def Sync.inodes (sync : Sync) : List Nat := sync.snapshotChunks.map fun e => e.1.1

def inFilter (inodeFilter : Option (List Nat)) (ino : Nat) : Bool :=
  match inodeFilter with
  | none => true
  | some inodes => decide (ino ∈ inodes)

/-- Where a goroutine stands that uses the staging area. -/
inductive Pc where
  /-- `FsyncWithEpoch` before the mutex -/
  | fsync (inodeID : Nat) (blocking : Bool) (trigger : SyncTrigger)
  /-- a blocking call in `waitForSyncIdleLocked` -/
  | fsyncIdle
  /-- a call that waits for its channel -/
  | waiting
  /-- `triggerCoalesceSync` -/
  | coalesce
  /-- `triggerCloseSync` -/
  | close
  | closeIdle
  | openBarrier (inodeID : Nat)
  | flushToBackend
  /-- nothing to sync: the mutex is released, `finishSync` comes next; where
  `mustFlush` is set, only if the stream can be flushed -/
  | skipping (sync : Sync) (err : Option SyncError) (mustFlush : Bool)
  /-- the snapshot is taken -/
  | uploading (sync : Sync)
  | appending (sync : Sync)
  /-- committed to the metadata, waiting for the stream -/
  | awaiting (sync : Sync)
  /-- `finishSync` comes next -/
  | finishing (sync : Sync) (err : Option SyncError)
  | done (err : Option SyncError)
  deriving DecidableEq, Repr

/-- What a timer starts when it fires. -/
def TimerKind.pc : TimerKind → Pc
  | .coalesce => .coalesce
  | .close => .close

namespace Staging

/-! Timers. -/

def armCoalesce (s : Staging) : Staging :=
  { s with coalesceTimer := some s.timers.length, timers := s.timers ++ [⟨.coalesce, .armed⟩] }

def armClose (s : Staging) : Staging :=
  { s with closeTimer := some s.timers.length, timers := s.timers ++ [⟨.close, .armed⟩] }

/-- Stop a timer, unless it has fired. -/
def stopped (timer : Option Nat) (timers : List Timer) : List Timer :=
  match timer with
  | none => timers
  | some i => match timers[i]? with
    | some ⟨kind, .armed⟩ => timers.set i ⟨kind, .stopped⟩
    | _ => timers

def stopCoalesce (s : Staging) : Staging :=
  { s with timers := stopped s.coalesceTimer s.timers, coalesceTimer := none }

def stopClose (s : Staging) : Staging :=
  { s with timers := stopped s.closeTimer s.timers, closeTimer := none }

/-! Writes. -/

/-- Append a chunk to the active pack; `full` says whether that fills it. -/
def appendChunkLocked (data : List UInt8) (full : Bool) (s : Staging) : Staging × StagedChunkReference :=
  let packID := s.activePack.getD (s.nextPackID + 1)
  ({ s with
      nextPackID := if s.activePack = none then s.nextPackID + 1 else s.nextPackID
      activePack := if full then none else some packID },
    { packID, data })

def setStagedChunkLocked (ino index : Nat) (reference : StagedChunkReference) (s : Staging) : Staging :=
  { s with
    stagedChunks := s.stagedChunks.insert (ino, index) ⟨reference, s.stagings⟩
    stagings := s.stagings + 1 }

/-- A chunk as `WriteFile` merges it: its index, its bytes, and whether it fills the pack. -/
structure ChunkWrite where
  index : Nat
  data : List UInt8
  full : Bool := false
  deriving DecidableEq, Repr

def stageChunk (ino : Nat) (s : Staging) (w : ChunkWrite) : Staging :=
  let appended := s.appendChunkLocked w.data w.full
  appended.1.setStagedChunkLocked ino w.index appended.2

/-- The second section of `WriteFile`. If `ok` is false, it fails after these chunks. -/
def writeFile (ino : Nat) (chunks : List ChunkWrite) (ok : Bool) (s : Staging) : Staging :=
  let s := chunks.foldl (stageChunk ino) s
  if ok then
    let s := { s with stagingSeq := s.stagingSeq + 1 }
    if s.syncInProgress ∧ s.coalesceTimer = none then s.armCoalesce else s
  else s

/-- Drop what is staged for an inode. -/
def dropStagedChunksLocked (ino : Nat) (s : Staging) : Staging :=
  { s with stagedChunks :=
      ⟨s.stagedChunks.entries.filter fun e => e.1.1 ≠ ino, s.stagedChunks.nodupKeys.sublist List.filter_sublist⟩ }

/-! The end of a sync. -/

/-- Drop a staged chunk if it is still the one that was committed. -/
def dropCommitted (staged : StagedChunks) (e : StagedEntry) : StagedChunks :=
  match staged.lookup e.1 with
  | some current => if current.reference = e.2.reference then staged.erase e.1 else staged
  | none => staged

def finishSync (sync : Sync) (err : Option SyncError) (s : Staging) : Staging :=
  let s := { s with
    syncInProgress := false
    syncingInodes := s.syncingInodes.filter fun ino => ino ∉ sync.inodes }
  let s := match err with
    | some e => { s with
        lastSyncError := sync.inodes.foldl (fun errors ino => errors.insert ino e) s.lastSyncError }
    | none => { s with
        stagedChunks := sync.snapshotChunks.foldl dropCommitted s.stagedChunks
        lastSyncError := sync.inodes.foldl (fun errors ino => errors.erase ino) s.lastSyncError }
  let complete := fun w : SyncWaiter =>
    decide (w.seq ≤ sync.snapshotSeq) && inFilter sync.inodeFilter w.inodeID
  let s := { s with
    coalesceWaiters := s.coalesceWaiters.filter fun w => !complete w
    answered := s.answered ++ (s.coalesceWaiters.filter complete).map fun w => (w.ch, err) }
  let s := if (s.coalesceWaiters ≠ [] ∨ s.stagedChunks.entries ≠ []) ∧ s.coalesceTimer = none
    then s.armCoalesce else s
  if s.closeInodes.getD [] ≠ [] ∧ s.closeTimer = none then s.armClose else s

/-! The start of a sync. -/

def hasStaged (ino : Nat) (s : Staging) : Bool := s.stagedChunks.entries.any fun e => e.1.1 = ino

/-- `executeSyncLocked` up to where it releases the mutex. The two branches with
nothing to sync (no staged chunks, and none that pass the filter) are one here. -/
def executeSyncLocked (sealOk : Bool) (inodeFilter : Option (List Nat)) (s : Staging) : Staging × Pc :=
  if s.activePack ≠ none ∧ sealOk = false then
    (s, .skipping { snapshotSeq := s.stagingSeq, inodeFilter } (some .sealPack) false)
  else
    let s := { s with activePack := none }
    let sync : Sync := {
      snapshotSeq := s.stagingSeq
      snapshotChunks := s.stagedChunks.entries.filter fun e => inFilter inodeFilter e.1.1
      inodeFilter }
    if sync.snapshotChunks = [] then (s, .skipping sync none false)
    else
      ({ s with
          syncInProgress := true
          syncingInodes := s.syncingInodes ++ sync.inodes },
        .uploading sync)

def syncInodesLocked (sealOk : Bool) (targetInodes : List Nat) (s : Staging) : Staging × Pc :=
  if targetInodes.any s.hasStaged then s.executeSyncLocked sealOk (some targetInodes)
  else (s, .skipping { snapshotSeq := s.stagingSeq, inodeFilter := some targetInodes } none false)

/-- A blocking `FsyncWithEpoch`, once no sync is in progress. -/
def blockingSync (sealOk : Bool) (s : Staging) : Staging × Pc :=
  if s.stagedChunks.entries = [] then
    (s, .skipping { snapshotSeq := s.stagingSeq, inodeFilter := none } none s.requirePermanent)
  else s.executeSyncLocked sealOk none

/-- `triggerCloseSync`, once no sync is in progress. -/
def closeSync (sealOk : Bool) (s : Staging) : Staging × Pc :=
  match s.closeInodes.getD [] with
  | [] => (s, .done none)
  | targetInodes => { s with closeInodes := some [] }.syncInodesLocked sealOk targetInodes

def addWaiter (ino t : Nat) (s : Staging) : Staging :=
  { s with coalesceWaiters := s.coalesceWaiters ++ [⟨s.stagingSeq, ino, t⟩] }

/-- `openBarrier` takes the inode out of the set to be synced on close. -/
def leaveClose (ino : Nat) (s : Staging) : Staging :=
  match s.closeInodes with
  | none => s
  | some inodes =>
    let s := { s with closeInodes := some (inodes.erase ino) }
    if inodes.erase ino = [] then s.stopClose else s

/-- The next section of goroutine `t`, or `none` where it has to wait. `ok` says
whether what it calls next (sealing the pack, flushing or waiting for the stream,
the upload, the transaction) succeeds. -/
def run (t : Nat) (ok : Bool) (s : Staging) : Pc → Option (Staging × Pc)
  | .fsync ino true _ =>
    match s.lastSyncError.lookup ino with
    | some e => some ({ s with lastSyncError := s.lastSyncError.erase ino }, .done (some e))
    | none =>
      let s := { s.stopCoalesce.stopClose with closeInodes := none }
      if s.syncInProgress then some (s, .fsyncIdle) else some (s.blockingSync ok)
  | .fsyncIdle => if s.syncInProgress then none else some (s.blockingSync ok)
  | .fsync ino false .close =>
    if s.hasStaged ino then
      let s := { s with closeInodes := some ((s.closeInodes.getD []).insert ino) }.addWaiter ino t
      some (if s.closeTimer = none then s.armClose else s, .waiting)
    else some (s, .done none)
  | .fsync ino false _ =>
    if s.stagedChunks.entries = [] then some (s, .done none)
    else
      let s := s.addWaiter ino t
      some (if s.coalesceTimer = none then s.armCoalesce else s, .waiting)
  | .waiting => (s.answered.lookup t).map fun err => (s, .done err)
  | .coalesce =>
    let s := { s with coalesceTimer := none }
    if s.syncInProgress ∨ s.stagedChunks.entries = [] then some (s, .done none)
    else some ({ s.stopClose with closeInodes := none }.executeSyncLocked ok none)
  | .close =>
    let s := { s with closeTimer := none }
    if s.syncInProgress then some (s, .closeIdle) else some (s.closeSync ok)
  | .closeIdle => if s.syncInProgress then none else some (s.closeSync ok)
  | .openBarrier ino =>
    if s.hasStaged ino = false ∧ ino ∉ s.syncingInodes then some (s, .done none)
    else if ino ∈ s.syncingInodes ∨ s.syncInProgress then none
    else some ((s.leaveClose ino).syncInodesLocked ok [ino])
  | .flushToBackend =>
    if s.syncInProgress then none
    else if s.stagedChunks.entries = [] then some (s, .done none)
    else some (s.executeSyncLocked ok none)
  | .skipping sync err mustFlush =>
    if mustFlush ∧ ok = false then some (s, .done (some .flush))
    else some (s.finishSync sync err, .done err)
  | .uploading sync => some (s, if ok then .appending sync else .finishing sync (some .upload))
  | .appending sync => some (s, if ok then .awaiting sync else .finishing sync (some .append))
  | .awaiting sync => some (s, .finishing sync (if ok then none else some .commit))
  | .finishing sync err => some (s.finishSync sync err, .done err)
  | .done _ => none

end Staging

end InClusterStorage.Controller
