import Mathlib.Data.List.Sort
import InClusterStorage.Lib.Table

/- The pack files of a volume's staging area (`volume.go`, `blob/incremental_pack.go`), with
   one definition for each section of `stagingMu`.

   A written chunk is appended to the active pack. A pack is sealed when its slots are full,
   and then uploaded in the background, or when a sync starts, and then uploaded by the sync;
   a sync waits for the uploads that are under way and repeats those that have failed.
   A pack that is uploaded and that no staged chunk refers to is evicted when a chunk is
   appended and the packs take too much space.

   What the blob package computes from the bytes of a chunk is a parameter (`Codec`). The
   files of a pack are never lost, and offsets are not cut to 32 bits. Of the metadata the
   model has the sizes in the inode rows. Waiters, timers and the modification times are left
   out, and the order of the slots in a sealed pack. -/
namespace InClusterStorage.Controller.Packs

/-! Packs. -/

abbrev Sha := List UInt8

/-- What `EncodeBlob` finds out about the bytes of a chunk. -/
structure Codec where
  sha256 : List UInt8 → Sha
  storedLength : List UInt8 → Nat
  encoding : List UInt8 → Nat

structure BlobEntry where
  sha256 : Sha
  dataOffset : Nat
  storedLength : Nat
  finalLength : Nat
  encoding : Nat
  deriving DecidableEq, Repr

structure IncrementalPack where
  slots : Nat
  /-- the size of the file -/
  offset : Nat
  isSealed : Bool := false
  /-- the entries, with the bytes they stand for -/
  blobs : List (BlobEntry × List UInt8) := []
  deriving DecidableEq, Repr

def defaultPackSlots : Nat := 1024

def packV2HeaderSize : Nat := 32

def packV2SlotSize : Nat := 48

def blobItemHeaderSize : Nat := 16

/-- What can fail when a chunk is appended. -/
inductive AppendStep where
  | create
  /-- the blob is written -/
  | copy
  /-- the blob is written, its slot is not -/
  | slot
  /-- the blob and its slot are written -/
  | close
  | sealPack
  deriving DecidableEq, Repr

inductive PackError where
  | packIsSealed
  | slotsFull
  | failed
  deriving DecidableEq, Repr

namespace IncrementalPack

def new (slots : Nat) : IncrementalPack := { slots, offset := packV2HeaderSize + slots * packV2SlotSize }

def entries (p : IncrementalPack) : List BlobEntry := p.blobs.map Prod.fst

def lookupLocked (target : Sha) (p : IncrementalPack) : Option BlobEntry :=
  p.entries.find? fun entry => entry.sha256 = target

/-- `Append`. Bytes that the pack has are not written again. -/
def append (codec : Codec) (fault : Option AppendStep) (data : List UInt8) (p : IncrementalPack) :
    IncrementalPack × Except PackError BlobEntry :=
  if p.isSealed then (p, .error .packIsSealed)
  else
    match p.lookupLocked (codec.sha256 data) with
    | some entry => (p, if fault = some .close then .error .failed else .ok entry)
    | none =>
      if p.slots ≤ p.blobs.length then (p, .error .slotsFull)
      else if fault = some .copy then (p, .error .failed)
      else
        let payloadStart := p.offset + blobItemHeaderSize
        let entry : BlobEntry := {
          sha256 := codec.sha256 data
          dataOffset := payloadStart
          storedLength := codec.storedLength data
          finalLength := data.length
          encoding := codec.encoding data }
        let moved := { p with offset := payloadStart + entry.storedLength }
        if fault = some .slot then (moved, .error .failed)
        else
          ({ moved with blobs := p.blobs ++ [(entry, data)] }, if fault = some .close then .error .failed else .ok entry)

def readBlob (entry : BlobEntry) (p : IncrementalPack) : Option (List UInt8) :=
  (p.blobs.find? fun blob => blob.1 = entry).map Prod.snd

end IncrementalPack

/-! The staging area. -/

inductive PackState where
  | notStarted
  | uploading
  | uploaded
  | failed
  deriving DecidableEq, Repr

structure PackInfo where
  pack : IncrementalPack
  liveReferences : Int := 0
  state : PackState := .notStarted
  deriving DecidableEq, Repr

structure StagedChunkReference where
  packID : Nat
  entry : BlobEntry
  length : Nat
  deriving DecidableEq, Repr

abbrev PackTable := AList fun _ : Nat => PackInfo

/-- Change what is known of a pack, if it is there. -/
def modifyInfo (packID : Nat) (f : PackInfo → PackInfo) (packs : PackTable) : PackTable :=
  match packs.lookup packID with
  | none => packs
  | some info => packs.insert packID (f info)

/-- Staged chunks by inode and index. -/
abbrev StagedChunks := AList fun _ : Nat × Nat => StagedChunkReference

abbrev StagedEntry := (_ : Nat × Nat) × StagedChunkReference

structure Config where
  codec : Codec
  /-- whether the volume has a blob store -/
  blobStore : Bool
  maxStagingBytes : Int
  maxInlineLen : Nat
  /-- 0 selects the default -/
  chunkSize : Nat

inductive UploadResult where
  | stored
  | failed
  | cancelled
  deriving DecidableEq, Repr

/-- What becomes of the pack. -/
def UploadResult.state : UploadResult → PackState
  | .stored => .uploaded
  | .failed => .failed
  | .cancelled => .notStarted

/-- The goroutine of `startPackUploadLocked`; it has a result once `uploadPackFile` is back. -/
structure Upload where
  packID : Nat
  result : Option UploadResult := none
  deriving DecidableEq, Repr

inductive SyncError where
  | sealPack
  | cancelled
  | upload
  | inodeNotFound
  | stagedPackNotFound
  | append
  | commit
  deriving DecidableEq, Repr

structure FileChunk where
  ino : Nat
  index : Nat
  /-- `none` is the empty string -/
  sha256 : Option Sha := none
  inlineData : List UInt8 := []
  deriving DecidableEq, Repr

/-- The rows of an inode in the transaction of a sync. -/
structure SyncRows where
  ino : Nat
  size : Nat
  chunks : List FileChunk
  deriving DecidableEq, Repr

inductive SyncPhase where
  /-- the loop of `uploadPacks` -/
  | uploading (packIDs : List Nat)
  /-- in `uploadPackFile`, for the first of the packs -/
  | storing (packID : Nat) (rest : List Nat)
  /-- back from `uploadPackFile` -/
  | stored (packID : Nat) (ok : Bool) (rest : List Nat)
  /-- `appendSyncRecordsLocked` has these inodes to do, and these rows -/
  | appending (inodes : List Nat) (rows : List SyncRows)
  /-- `finishSync` comes next -/
  | finishing (err : Option SyncError)
  deriving DecidableEq, Repr

structure Sync where
  snapshotChunks : List StagedEntry := []
  snapshotSizes : AList fun _ : Nat => Nat := ∅
  phase : SyncPhase

namespace Sync

def inodes (sync : Sync) : List Nat := (sync.snapshotChunks.map fun e => e.1.1).dedup

/-- The chunks of an inode in the snapshot, by their indices. -/
def chunksOf (ino : Nat) (sync : Sync) : List (Nat × StagedChunkReference) :=
  (sync.snapshotChunks.filter fun e => e.1.1 = ino).map fun e => (e.1.2, e.2)

def sizeOf (ino : Nat) (sync : Sync) : Nat := (sync.snapshotSizes.lookup ino).getD 0

/-- The digest that is committed for a chunk. The first loop of `appendSyncRecordsLocked`
leaves out the chunk of a file that is small in the snapshot. -/
def chunkSha (maxInlineLen ino : Nat) (reference : StagedChunkReference) (sync : Sync) : Option Sha :=
  if sync.sizeOf ino ≤ maxInlineLen ∧ (sync.chunksOf ino).length ≤ 1 then none else some reference.entry.sha256

end Sync

structure Volume where
  config : Config
  packs : PackTable := ∅
  activePack : Option Nat := none
  nextPackID : Nat := 0
  stagedChunks : StagedChunks := ∅
  stagedSizes : AList fun _ : Nat => Nat := ∅
  stagedBytes : Int := 0
  /-- the uploads in the background -/
  uploads : List Upload := []
  /-- the packs in the backend -/
  stored : List IncrementalPack := []
  /-- the sizes in the inode rows -/
  inodes : AList fun _ : Nat => Nat := ∅
  /-- syncs run one at a time -/
  sync : Option Sync := none

variable (sync : Sync) (v : Volume)

namespace Volume

/-! Packs of the volume. -/

def modifyPack (packID : Nat) (f : PackInfo → PackInfo) (v : Volume) : Volume :=
  { v with packs := modifyInfo packID f v.packs }

def setState (packID : Nat) (state : PackState) (v : Volume) : Volume :=
  v.modifyPack packID fun info => { info with state }

def readStagedChunkBytes (reference : StagedChunkReference) (v : Volume) : Option (List UInt8) :=
  (v.packs.lookup reference.packID).bind fun info => info.pack.readBlob reference.entry

/-- The size of all packs. -/
def total : Int := v.packs.entries.foldl (fun total e => total + (e.2.pack.offset : Int)) 0

def evictable (info : PackInfo) : Bool := info.state = .uploaded && info.liveReferences ≤ 0

/-- The packs that may be evicted, in the order of their numbers. -/
def eligible : List Nat :=
  ((v.packs.entries.filter fun e => evictable e.2).map Sigma.fst).insertionSort (· ≤ ·)

def evictLoop (maxStagingBytes neededBytes : Int) : List Nat → Int → PackTable → PackTable
  | [], _, packs => packs
  | packID :: rest, total, packs =>
    let total := total - ((packs.lookup packID).map fun info => (info.pack.offset : Int)).getD 0
    if total + neededBytes ≤ maxStagingBytes then packs.erase packID
    else evictLoop maxStagingBytes neededBytes rest total (packs.erase packID)

def evictUploadedPacksLocked (neededBytes : Int) (v : Volume) : Volume :=
  if v.total + neededBytes ≤ v.config.maxStagingBytes ∨ v.eligible = [] then v
  else { v with packs := evictLoop v.config.maxStagingBytes neededBytes v.eligible v.total v.packs }

def startPackUploadLocked (packID : Nat) (v : Volume) : Volume :=
  match v.packs.lookup packID with
  | none => v
  | some info =>
    if v.config.blobStore = false then v.setState packID .uploaded
    else if info.state = .uploading ∨ info.state = .uploaded then v
    else { v.setState packID .uploading with uploads := v.uploads ++ [{ packID }] }

/-! Chunks. -/

inductive StageError where
  | noSpace
  | createPack
  | append (err : PackError)
  | sealPack
  | stagedPackNotFound
  | notStaged
  deriving DecidableEq, Repr

/-- `appendChunkLocked` once there is an active pack. -/
def appendToActive (fault : Option AppendStep) (data : List UInt8) (packID : Nat) (v : Volume) :
    Volume × Except StageError StagedChunkReference :=
  match v.packs.lookup packID with
  -- the active pack is there: it is not uploaded
  | none => (v, .error .stagedPackNotFound)
  | some info =>
    let appended := info.pack.append v.config.codec fault data
    let v := v.modifyPack packID fun info => { info with pack := appended.1 }
    match appended.2 with
    | .error e => (v, .error (.append e))
    | .ok entry =>
      let reference : StagedChunkReference := { packID, entry, length := data.length }
      if defaultPackSlots ≤ appended.1.blobs.length then
        if fault = some .sealPack then (v, .error .sealPack)
        else
          let v := v.modifyPack packID fun info => { info with pack := { info.pack with isSealed := true } }
          ({ v with activePack := none }.startPackUploadLocked packID, .ok reference)
      else (v, .ok reference)

def appendChunkLocked (fault : Option AppendStep) (data : List UInt8) (v : Volume) :
    Volume × Except StageError StagedChunkReference :=
  let v := v.evictUploadedPacksLocked data.length
  match v.activePack with
  | some packID => v.appendToActive fault data packID
  | none =>
    let packID := v.nextPackID + 1
    let v := { v with nextPackID := packID }
    if fault = some .create then (v, .error .createPack)
    else
      { v with
        activePack := some packID
        packs := v.packs.insert packID { pack := .new defaultPackSlots } }.appendToActive fault data packID

def dropPackReferenceLocked (packID : Nat) (v : Volume) : Volume :=
  v.modifyPack packID fun info => { info with liveReferences := info.liveReferences - 1 }

def addPackReference (packID : Nat) (v : Volume) : Volume :=
  v.modifyPack packID fun info => { info with liveReferences := info.liveReferences + 1 }

def setStagedChunkLocked (ino index : Nat) (reference : StagedChunkReference) (v : Volume) : Volume :=
  let v := match v.stagedChunks.lookup (ino, index) with
    | none => v
    | some existing =>
      { v with stagedBytes := v.stagedBytes - existing.length }.dropPackReferenceLocked existing.packID
  { v with
    stagedChunks := v.stagedChunks.insert (ino, index) reference
    stagedBytes := v.stagedBytes + reference.length }.addPackReference reference.packID

def hasStaged (ino : Nat) (v : Volume) : Bool := v.stagedChunks.entries.any fun e => e.1.1 = ino

def dropStagedChunkLocked (ino index : Nat) (v : Volume) : Volume :=
  match v.stagedChunks.lookup (ino, index) with
  | none => v
  | some existing =>
    let v := { v with
      stagedBytes := v.stagedBytes - existing.length
      stagedChunks := v.stagedChunks.erase (ino, index) }.dropPackReferenceLocked existing.packID
    if v.hasStaged ino then v else { v with stagedSizes := v.stagedSizes.erase ino }

/-- The chunks of the inode that are staged, by their indices. -/
def stagedIndices (ino : Nat) (v : Volume) : List Nat :=
  (v.stagedChunks.entries.filter fun e => e.1.1 = ino).map fun e => e.1.2

/-- Each chunk is dropped; with the last one the size is. -/
def dropStagedChunksLocked (ino : Nat) (v : Volume) : Volume :=
  (v.stagedIndices ino).foldl (fun v index => v.dropStagedChunkLocked ino index) v

def stageChunk (ino index : Nat) (fault : Option AppendStep) (data : List UInt8) (v : Volume) :
    Volume × Option StageError :=
  match v.appendChunkLocked fault data with
  | (v, .error e) => (v, some e)
  | (v, .ok reference) => (v.setStagedChunkLocked ino index reference, none)

def rewriteStagedChunkLocked (ino index : Nat) (fault : Option AppendStep) (modify : List UInt8 → List UInt8) (v : Volume) :
    Volume × Option StageError :=
  match v.stagedChunks.lookup (ino, index) with
  | none => (v, some .notStaged)
  | some existing =>
    match v.readStagedChunkBytes existing with
    | none => (v, some .stagedPackNotFound)
    | some data => v.stageChunk ino index fault (modify data)

/-- A loop that stops at the first error. -/
def stageAll {α : Type} (f : α → Volume → Volume × Option StageError) : List α → Volume → Volume × Option StageError
  | [], v => (v, none)
  | a :: rest, v =>
    match f a v with
    | (v, some e) => (v, some e)
    | (v, none) => stageAll f rest v

/-! Writes and truncations. -/

/-- A chunk as `WriteFile` has merged it. -/
structure ChunkWrite where
  index : Nat
  data : List UInt8
  fault : Option AppendStep := none
  deriving DecidableEq, Repr

/-- A chunk that is staged is read before it is written again. -/
def writeChunk (ino : Nat) (w : ChunkWrite) (v : Volume) : Volume × Option StageError :=
  match v.stagedChunks.lookup (ino, w.index) with
  | none => v.stageChunk ino w.index w.fault w.data
  | some _ => v.rewriteStagedChunkLocked ino w.index w.fault fun _ => w.data

/-- The second section of `WriteFile`, for `dataLength` bytes; `size` is the size of the
file after it. -/
def writeFile (ino dataLength : Nat) (chunks : List ChunkWrite) (size : Nat) (v : Volume) : Volume × Option StageError :=
  if v.config.maxStagingBytes < v.stagedBytes + dataLength then (v, some .noSpace)
  else
    match stageAll (writeChunk ino) chunks v with
    | (v, some e) => (v, some e)
    | (v, none) => ({ v with stagedSizes := v.stagedSizes.insert ino size }, none)

def volumeChunkSize : Nat := if v.config.chunkSize = 0 then 64 * 1024 else v.config.chunkSize

def truncateChunk (ino size : Nat) (chunk : Nat × Option AppendStep) (v : Volume) : Volume × Option StageError :=
  match v.stagedChunks.lookup (ino, chunk.1) with
  | none => (v, none)
  | some reference =>
    let cs := v.volumeChunkSize
    if size ≤ chunk.1 * cs then (v.dropStagedChunkLocked ino chunk.1, none)
    else if size < (chunk.1 + 1) * cs ∧ size - chunk.1 * cs < reference.length then
      v.rewriteStagedChunkLocked ino chunk.1 chunk.2 fun data => data.take (size - chunk.1 * cs)
    else (v, none)

/-- The first section of `TruncateFile`. The chunks are visited in any order. -/
def truncateFile (ino size : Nat) (order : List (Nat × Option AppendStep)) (v : Volume) : Volume × Option StageError :=
  match stageAll (truncateChunk ino size) order v with
  | (v, some e) => (v, some e)
  | (v, none) => (if v.hasStaged ino then { v with stagedSizes := v.stagedSizes.insert ino size } else v, none)

/-! Uploads. -/

/-- `uploadPackFile`, and whether it succeeds. -/
def uploadPackFile (packID : Nat) (ok : Bool) (v : Volume) : Volume × Bool :=
  match v.packs.lookup packID with
  | none => (v, false)
  | some info => if ok then ({ v with stored := v.stored ++ [info.pack] }, true) else (v, false)

/-- An upload in the background calls `uploadPackFile`. -/
def runUpload (i : Nat) (result : UploadResult) (v : Volume) : Option Volume :=
  match v.uploads[i]? with
  | some ⟨packID, none⟩ =>
    let uploaded := v.uploadPackFile packID (result = .stored)
    let result := if uploaded.2 = false ∧ result = .stored then .failed else result
    some { uploaded.1 with uploads := v.uploads.set i ⟨packID, some result⟩ }
  | _ => none

/-- It ends: it is cancelled before it has started, or it has a result. -/
def endUpload (i : Nat) (v : Volume) : Option Volume :=
  v.uploads[i]?.map fun upload =>
    { v.setState upload.packID (upload.result.getD .cancelled).state with uploads := v.uploads.eraseIdx i }

/-! Syncs. -/

def inFilter (inodeFilter : Option (List Nat)) (ino : Nat) : Bool :=
  match inodeFilter with
  | none => true
  | some inodes => decide (ino ∈ inodes)

def sealActivePackLocked : Volume :=
  match v.activePack with
  | none => v
  | some packID =>
    { v.modifyPack packID (fun info => { info with pack := { info.pack with isSealed := true } }) with activePack := none }

def packIDsToUpload : List Nat :=
  ((v.packs.entries.filter fun e => e.2.state ≠ .uploaded).map Sigma.fst).insertionSort (· ≤ ·)

/-- `executeSyncLocked` up to where it releases the mutex. -/
def executeSyncLocked (sealOk : Bool) (inodeFilter : Option (List Nat)) (v : Volume) : Volume :=
  if v.activePack ≠ none ∧ sealOk = false then { v with sync := some { phase := .finishing (some .sealPack) } }
  else
    let v := v.sealActivePackLocked
    let snapshotChunks := v.stagedChunks.entries.filter fun e => inFilter inodeFilter e.1.1
    if snapshotChunks = [] then { v with sync := some { phase := .finishing none } }
    else
      -- the sizes are looked up for the inodes of the snapshot only
      { v with sync := some { snapshotChunks, snapshotSizes := v.stagedSizes, phase := .uploading v.packIDsToUpload } }

def setPhase (phase : SyncPhase) (v : Volume) : Volume := { v with sync := some { sync with phase } }

/-- The loop of `uploadPacks`: the next pack is skipped, or uploaded. After the last one
`appendSyncRecordsLocked` loads the inodes. -/
def nextPack (packIDs : List Nat) (v : Volume) : Option Volume :=
  match packIDs with
  | [] =>
    if sync.inodes.all fun ino => (v.inodes.lookup ino).isSome then some (v.setPhase sync (.appending sync.inodes []))
    else some (v.setPhase sync (.finishing (some .inodeNotFound)))
  | packID :: rest =>
    if v.config.blobStore then
      match v.packs.lookup packID with
      | none => some (v.setPhase sync (.uploading rest))
      | some info =>
        match info.state with
        -- the sync waits
        | .uploading => none
        | .uploaded => some (v.setPhase sync (.uploading rest))
        | _ => some (v.setPhase sync (.storing packID rest))
    else some ((v.setState packID .uploaded).setPhase sync (.uploading rest))

/-- The state that `uploadPacks` gives a pack after its upload. -/
def packDone (packID : Nat) (ok : Bool) (rest : List Nat) (v : Volume) : Volume :=
  if ok then (v.setState packID .uploaded).setPhase sync (.uploading rest)
  else (v.setState packID .failed).setPhase sync (.finishing (some .upload))

/-- The rows of an inode, as `appendSyncRecordsLocked` makes them. -/
def syncRows (ino : Nat) (v : Volume) : Except SyncError SyncRows :=
  let chunks := sync.chunksOf ino
  let size := max (sync.sizeOf ino) ((v.inodes.lookup ino).getD 0)
  if size ≤ v.config.maxInlineLen ∧ chunks.length ≤ 1 then
    match chunks.find? fun chunk => chunk.1 = 0 with
    | none => .ok { ino, size, chunks := [{ ino, index := 0 }] }
    | some chunk =>
      match v.readStagedChunkBytes chunk.2 with
      | none => .error .stagedPackNotFound
      | some inlineData => .ok { ino, size, chunks := [{ ino, index := 0, inlineData }] }
  else
    .ok { ino, size, chunks := chunks.map fun chunk =>
      { ino, index := chunk.1, sha256 := sync.chunkSha v.config.maxInlineLen ino chunk.2 } }

/-- One round of the loop of `appendSyncRecordsLocked`. -/
def appendInode (inodes : List Nat) (rows : List SyncRows) (ino : Nat) (ok : Bool) (v : Volume) : Volume :=
  match v.syncRows sync ino with
  | .error e => v.setPhase sync (.finishing (some e))
  | .ok row =>
    if ok then v.setPhase sync (.appending (inodes.erase ino) (rows ++ [row]))
    else v.setPhase sync (.finishing (some .append))

/-- Where the transaction fails: it is not committed, or it does not reach the level that is
asked for. -/
inductive CommitStep where
  | append
  | wait
  deriving DecidableEq, Repr

def commit (rows : List SyncRows) (fault : Option CommitStep) (v : Volume) : Volume :=
  if fault = some .append then v.setPhase sync (.finishing (some .commit))
  else
    let inodes := rows.foldl (fun inodes row => inodes.insert row.ino row.size) v.inodes
    let err := if fault = some .wait then some .commit else none
    { v with inodes }.setPhase sync (.finishing err)

/-- Drop a staged chunk if it is still the one that was committed. -/
def dropCommitted (e : StagedEntry) : Volume :=
  if v.stagedChunks.lookup e.1 = some e.2 then v.dropStagedChunkLocked e.1.1 e.1.2 else v

def finishSync (err : Option SyncError) (v : Volume) : Volume :=
  let v := { v with sync := none }
  match err with
  | some _ => v
  | none => sync.snapshotChunks.foldl dropCommitted (v.evictUploadedPacksLocked 0)

/-! Runs. -/

inductive SyncEvent where
  /-- its context is cancelled while it waits for an upload -/
  | cancel
  | nextPack
  | storePack (ok : Bool)
  | packDone
  | appendInode (ino : Nat) (ok : Bool)
  | commit (fault : Option CommitStep)
  | finish
  deriving DecidableEq, Repr

inductive Event where
  | write (ino dataLength : Nat) (chunks : List ChunkWrite) (size : Nat)
  | truncate (ino size : Nat) (order : List (Nat × Option AppendStep))
  /-- the section of `Unlink` -/
  | drop (ino : Nat)
  /-- another transaction: the inode has this size, or it is gone -/
  | setInode (ino : Nat) (size : Option Nat)
  | runUpload (i : Nat) (result : UploadResult)
  | endUpload (i : Nat)
  | startSync (sealOk : Bool) (inodeFilter : Option (List Nat))
  | sync (e : SyncEvent)
  deriving DecidableEq, Repr

def stepSync : SyncEvent → Option Volume
  | .cancel => match sync.phase with
    | .uploading (packID :: _) =>
      if (v.packs.lookup packID).map (·.state) = some .uploading then some (v.setPhase sync (.finishing (some .cancelled)))
      else none
    | _ => none
  | .nextPack => match sync.phase with
    | .uploading packIDs => v.nextPack sync packIDs
    | _ => none
  | .storePack ok => match sync.phase with
    | .storing packID rest =>
      let uploaded := v.uploadPackFile packID ok
      some (uploaded.1.setPhase sync (.stored packID uploaded.2 rest))
    | _ => none
  | .packDone => match sync.phase with
    | .stored packID ok rest => some (v.packDone sync packID ok rest)
    | _ => none
  | .appendInode ino ok => match sync.phase with
    | .appending inodes rows => if ino ∈ inodes then some (v.appendInode sync inodes rows ino ok) else none
    | _ => none
  | .commit fault => match sync.phase with
    | .appending [] rows => some (v.commit sync rows fault)
    | _ => none
  | .finish => match sync.phase with
    | .finishing err => some (v.finishSync sync err)
    | _ => none

/-- A sync that appends its records holds the mutex of the metadata. -/
def metadataLocked : Bool :=
  match v.sync with
  | some ⟨_, _, .appending _ _⟩ => true
  | _ => false

def setInode (ino : Nat) (size : Option Nat) (v : Volume) : Volume :=
  match size with
  | none => { v with inodes := v.inodes.erase ino }
  | some size => { v with inodes := v.inodes.insert ino size }

def step : Event → Option Volume
  | .write ino dataLength chunks size => some (v.writeFile ino dataLength chunks size).1
  | .truncate ino size order => some (v.truncateFile ino size order).1
  | .drop ino => some (v.dropStagedChunksLocked ino)
  | .setInode ino size => if v.metadataLocked then none else some (v.setInode ino size)
  | .runUpload i result => v.runUpload i result
  | .endUpload i => v.endUpload i
  | .startSync sealOk inodeFilter => if v.sync.isSome then none else some (v.executeSyncLocked sealOk inodeFilter)
  | .sync e => v.sync.bind fun sync => stepSync sync v e

end Volume

end InClusterStorage.Controller.Packs
