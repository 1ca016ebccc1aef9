import Mathlib.Data.UInt
import InClusterStorage.Lib.Bytes
import InClusterStorage.Controller.Staging

/- The data of one regular file (`volume.go`): its inode row, its `FileChunk` rows
   and what `WriteFile` has staged of it, with one definition per critical section.

   Written bytes are staged, chunk by chunk. A sync commits the staged chunks to
   the rows: to an inline chunk 0 where the file is small, to one blob per chunk
   otherwise. `TruncateFile` and `PunchHole` change the rows themselves, `ReadFile`
   reads the rows and never what is staged.

   A digest is modelled by the bytes it is the digest of: the blob store is content
   addressed and does not fail. Times, owners, the limit on staged bytes and the
   upload of packs are left out. Chunk indices are not cut to 32 bits and sizes not
   to 64: the files are shorter than `2^32` chunks. -/
namespace InClusterStorage.Controller

open Bytes

/-- A digest, by the bytes it stands for; `none` is the empty string. -/
abbrev Digest := Option (List UInt8)

/-- What a volume is configured with. -/
structure Limits where
  /-- 0 selects the default -/
  chunkSize : Nat
  maxInlineLen : Nat
  deriving DecidableEq, Repr

/-- The chunk size of new files. -/
def Limits.volumeChunkSize (limits : Limits) : Nat :=
  if limits.chunkSize = 0 then 64 * 1024 else limits.chunkSize

/-- What an inode row says of the file's data. -/
structure FileRow where
  size : Nat
  chunkSize : Nat
  sha256 : Digest := none
  contentSha256 : Digest := none
  /-- the row names a manifest; nothing here reads what is in it -/
  manifestSha256 : Bool := false
  deriving DecidableEq, Repr

/-- The chunk size of a file; rows may lack one. -/
def Limits.chunkSizeOf (limits : Limits) (row : FileRow) : Nat :=
  if 0 < row.chunkSize then row.chunkSize else limits.volumeChunkSize

structure FileChunk where
  inlineData : List UInt8 := []
  sha256 : Digest := none
  deriving DecidableEq, Repr

/-- A loaded inode: a copy of the row, and what was found in the `FileChunk` rows. -/
structure CachedInode where
  row : FileRow
  chunks : AList fun _ : Nat => List UInt8 := ∅
  inlineData : List UInt8 := []

structure File where
  row : FileRow
  chunkRows : AList fun _ : Nat => FileChunk := ∅
  stagedChunks : AList fun _ : Nat => StagedChunkReference := ∅
  stagedSize : Option Nat := none
  /-- the pack that takes the next staged chunk -/
  packID : Nat := 0

/-- A file as `CreateFile` makes it, with no content. -/
def Limits.emptyFile (limits : Limits) : File :=
  { row := { size := 0, chunkSize := limits.volumeChunkSize } }

/-- The chunks that hold the positions from `offset` to `stop`. -/
def chunkRange (chunkSize offset stop : Nat) : List Nat :=
  List.range' (offset / chunkSize) ((stop - 1) / chunkSize + 1 - offset / chunkSize)

/-- How long chunk `i` of a file of the size is. -/
def expectedChunkLength (chunkSize size i : Nat) : Nat :=
  if size < (i + 1) * chunkSize then size - i * chunkSize else chunkSize

variable (limits : Limits) (f : File) (node : CachedInode)

/-! Loading and reading. -/

namespace File

/-- Take one `FileChunk` row into the loaded inode. -/
def loadChunk (index : Nat) : CachedInode :=
  match f.chunkRows.lookup index with
  | none => node
  | some chunk =>
    if index = 0 ∧ chunk.inlineData ≠ [] then { node with inlineData := chunk.inlineData }
    else
      match chunk.sha256 with
      | some chunkSha => { node with chunks := node.chunks.insert index chunkSha }
      | none => node

/-- `ensureInodeChunksLoadedLocked`: the rows are those of now, the loaded inode may
be an older one. -/
def ensureInodeChunksLoaded : CachedInode :=
  if node.row.size = 0 then node
  else if 0 < node.row.chunkSize ∧ 0 < node.chunks.entries.length then node
  else f.chunkRows.keys.foldl f.loadChunk node

def getOrLoadInode : CachedInode := f.ensureInodeChunksLoaded { row := f.row }

/-- Where a chunk comes from: data at hand, or else a blob. -/
def resolveChunkSource (chunkIdx : Nat) : CachedInode × List UInt8 × Digest :=
  if chunkIdx = 0 ∧ node.inlineData ≠ [] then (node, node.inlineData, none)
  else
    let node := f.ensureInodeChunksLoaded node
    match node.chunks.lookup chunkIdx with
    | some chunkSha => (node, [], some chunkSha)
    | none =>
      if chunkIdx = 0 ∧ (node.row.sha256 ≠ none ∨ node.row.contentSha256 ≠ none) ∧ node.chunks.entries.length = 0 then
        (node, [], if node.row.sha256 = none then node.row.contentSha256 else node.row.sha256)
      else (node, [], none)

/-- `readBaseChunk` and `readChunkLocked`. -/
def readChunk (chunkIdx : Nat) : CachedInode × List UInt8 :=
  match f.resolveChunkSource node chunkIdx with
  | (node, data, sha) => (node, if data ≠ [] then data else sha.getD [])

end File

/-- Copy a chunk's share of the range to the result of a read. -/
def copyChunk (chunkSize total offset stop : Nat) (res : List UInt8) (i : Nat) (chunkData : List UInt8) : List UInt8 :=
  let rStart := offset - i * chunkSize
  let rEnd := min (stop - i * chunkSize) (expectedChunkLength chunkSize total i)
  let validEnd := min rEnd chunkData.length
  if rStart < validEnd then overwrite res (i * chunkSize + rStart - offset) (slice chunkData rStart validEnd)
  else res

namespace File

/-- Read chunk `i` and copy its share of the range. -/
def readStep (cs total offset stop : Nat) (f : File) (read : CachedInode × List UInt8) (i : Nat) :
    CachedInode × List UInt8 :=
  ((f.readChunk read.1 i).1, copyChunk cs total offset stop read.2 i (f.readChunk read.1 i).2)

def readFile (offset length : Nat) : List UInt8 :=
  let node := f.getOrLoadInode
  let total := node.row.size
  if total ≤ offset ∨ total = 0 then []
  else
    let stop := if length = 0 ∨ total < offset + length then total else offset + length
    if node.inlineData ≠ [] then resize (stop - offset) (slice node.inlineData offset stop)
    else if node.row.manifestSha256 = true ∨ 0 < node.row.chunkSize ∨ 0 < node.chunks.entries.length then
      let cs := limits.chunkSizeOf node.row
      ((chunkRange cs offset stop).foldl (f.readStep cs total offset stop)
        (f.ensureInodeChunksLoaded node, zeros (stop - offset))).2
    else
      match node.row.sha256 with
      | some data => slice data offset stop
      | none => zeros (stop - offset)

/-! Staging. -/

def setStagedChunk (index : Nat) (data : List UInt8) : File :=
  { f with stagedChunks := f.stagedChunks.insert index { packID := f.packID, data } }

def dropStagedChunk (index : Nat) : File :=
  match f.stagedChunks.lookup index with
  | none => f
  | some _ =>
    let chunks := f.stagedChunks.erase index
    { f with stagedChunks := chunks, stagedSize := if chunks.entries.length = 0 then none else f.stagedSize }

def dropStagedChunks : File := { f with stagedChunks := ∅, stagedSize := none }

end File

/-! Writing. -/

structure Write where
  offset : Nat
  data : List UInt8
  deriving DecidableEq, Repr

variable (w : Write)

namespace Write

def stop : Nat := w.offset + w.data.length

def chunks (chunkSize : Nat) : List Nat := chunkRange chunkSize w.offset w.stop

def writeStart (chunkSize i : Nat) : Nat := w.offset - i * chunkSize

def writeEnd (chunkSize i : Nat) : Nat := min (w.stop - i * chunkSize) chunkSize

/-- The part of the data that goes to chunk `i`. -/
def chunkData (chunkSize i : Nat) : List UInt8 :=
  slice w.data (i * chunkSize - w.offset) (min (i * chunkSize + chunkSize - w.offset) w.data.length)

end Write

/-- The size after the write; the row is the one of the loaded inode. -/
def File.calculatedSize : Nat :=
  max w.stop (max node.row.size (f.stagedSize.getD 0))

/-- Chunk `i` after the write, from what it held before. -/
def Write.mergeChunk (chunkSize size i : Nat) (chunkData : List UInt8) : List UInt8 :=
  let expected := expectedChunkLength chunkSize size i
  let grown := if chunkData.length < expected then resize expected chunkData else chunkData
  overwrite grown (w.writeStart chunkSize i) (w.chunkData chunkSize i)

namespace File

/-- The chunks the write covers in part and that are not staged. -/
def neededBaseChunks : List Nat :=
  let cs := limits.chunkSizeOf node.row
  (w.chunks cs).filter fun i =>
    (f.stagedChunks.lookup i).isNone ∧
      (0 < w.writeStart cs i ∨ w.writeEnd cs i < expectedChunkLength cs (f.calculatedSize node w) i)

/-- Read one base chunk; the loaded inode is updated on the way. -/
def readBaseChunk (read : CachedInode × AList fun _ : Nat => List UInt8) (index : Nat) :
    CachedInode × AList fun _ : Nat => List UInt8 :=
  let baseData := (f.readChunk read.1 index).2
  ((f.readChunk read.1 index).1, if baseData ≠ [] then read.2.insert index baseData else read.2)

/-- Committed inline data moves to the staged chunk 0. -/
def stageInline : File :=
  if node.inlineData ≠ [] ∧ (f.stagedChunks.lookup 0).isNone then f.setStagedChunk 0 node.inlineData else f

/-- What chunk `i` holds for the merge: what is staged, or else the base chunk. -/
def chunkBefore (baseChunks : AList fun _ : Nat => List UInt8) (i : Nat) : List UInt8 :=
  match f.stagedChunks.lookup i with
  | some existing => existing.data
  | none => (baseChunks.lookup i).getD []

/-- Merge the write into chunk `i` and stage it. -/
def stageChunk (cs size : Nat) (baseChunks : AList fun _ : Nat => List UInt8) (w : Write) (f : File) (i : Nat) : File :=
  f.setStagedChunk i (w.mergeChunk cs size i (f.chunkBefore baseChunks i))

/-- The last critical section of a write. -/
def stageWrite (baseChunks : AList fun _ : Nat => List UInt8) (w : Write) : File :=
  let cs := limits.chunkSizeOf node.row
  let size := f.calculatedSize node w
  { (w.chunks cs).foldl (stageChunk cs size baseChunks w) (f.stageInline node) with stagedSize := some size }

/-- `WriteFile`, with no other call in between. -/
def writeFile : File :=
  let node := f.getOrLoadInode
  let read := (f.neededBaseChunks limits node w).foldl f.readBaseChunk (node, ∅)
  f.stageWrite limits read.1 read.2 w

end File

/-! Syncs. -/

/-- What a sync has taken of the file. -/
structure Snapshot where
  chunks : AList fun _ : Nat => StagedChunkReference
  size : Nat

/-- The digests of the chunks; whether there are any is decided from the size in the
snapshot. -/
def Snapshot.chunkSha (snap : Snapshot) (index : Nat) : Digest :=
  if snap.size ≤ limits.maxInlineLen ∧ snap.chunks.entries.length ≤ 1 then none
  else (snap.chunks.lookup index).map (·.data)

namespace File

/-- A sync starts: the active pack is sealed and the staged chunks are copied. -/
def snapshot : Snapshot := { chunks := f.stagedChunks, size := f.stagedSize.getD 0 }

def sealActivePack : File := { f with packID := f.packID + 1 }

/-- Commit the snapshot to the rows. -/
def appendSyncRecords (snap : Snapshot) : File :=
  let cs := limits.chunkSizeOf f.row
  let newSize := max snap.size f.row.size
  if newSize ≤ limits.maxInlineLen ∧ snap.chunks.entries.length ≤ 1 then
    let inlineData := ((snap.chunks.lookup 0).map (·.data)).getD []
    { f with
      chunkRows := f.chunkRows.insert 0 { inlineData }
      row := { size := newSize, chunkSize := cs, contentSha256 := some inlineData } }
  else
    { f with
      chunkRows := snap.chunks.keys.foldl
        (fun rows index => rows.insert index { sha256 := snap.chunkSha limits index }) f.chunkRows
      row := { size := newSize, chunkSize := cs, manifestSha256 := true } }

/-- A staged chunk that is still the one of the snapshot is dropped. -/
def dropCommitted (snap : Snapshot) (f : File) (index : Nat) : File :=
  if (f.stagedChunks.lookup index).isSome ∧ f.stagedChunks.lookup index = snap.chunks.lookup index then
    f.dropStagedChunk index
  else f

/-- `finishSync` after a sync that succeeded. -/
def finishSync (snap : Snapshot) : File := snap.chunks.keys.foldl (dropCommitted snap) f

/-- A blocking `Fsync`, with no other call in between. -/
def fsync : File :=
  if f.stagedChunks.entries.length = 0 then f.sealActivePack
  else (f.sealActivePack.appendSyncRecords limits f.snapshot).finishSync f.snapshot

end File

/-! Truncating. -/

namespace File

/-- Drop a staged chunk beyond the size, or cut the one at the boundary. -/
def truncateStagedChunk (cs : Nat) (size : Int) (f : File) (index : Nat) : File :=
  match f.stagedChunks.lookup index with
  | none => f
  | some reference =>
    let keep := (size - index * cs).toNat
    if size ≤ index * cs then f.dropStagedChunk index
    else if size < (index + 1) * cs ∧ keep < reference.data.length then
      f.setStagedChunk index (reference.data.take keep)
    else f

/-- The first critical section of `TruncateFile`. -/
def truncateStaged (size : Int) : File :=
  if f.stagedChunks.entries.length = 0 then f
  else
    let cut := f.stagedChunks.keys.foldl (truncateStagedChunk limits.volumeChunkSize size) f
    if cut.stagedChunks.entries.length = 0 then cut else { cut with stagedSize := some size.toNat }

/-- The second critical section of `TruncateFile`, for a size that is not negative.
It is one transaction, so that reading a chunk does not change the loaded inode. -/
def truncateRows (size : Nat) : File :=
  let node := f.ensureInodeChunksLoaded f.getOrLoadInode
  let oldChunks := node.chunks
  if size = 0 then
    { f with
      row := { f.row with size := 0, sha256 := none, contentSha256 := none, manifestSha256 := false }
      chunkRows :=
        if oldChunks.entries.length = 0 then f.chunkRows.erase 0
        else oldChunks.keys.foldl (fun rows i => rows.erase i) f.chunkRows }
  else if size ≤ limits.maxInlineLen ∧ oldChunks.entries.length ≤ 1 then
    let chunk0 := (f.readChunk node 0).2
    let others := oldChunks.keys.foldl (fun rows i => if i ≠ 0 then rows.erase i else rows) f.chunkRows
    { f with
      row := { f.row with size, sha256 := none, contentSha256 := none }
      chunkRows := others.insert 0 { inlineData := resize size chunk0 } }
  else
    let cs := limits.chunkSizeOf f.row
    let newNumChunks := (size + cs - 1) / cs
    let lastIdx := newNumChunks - 1
    let lastChunkData := (f.readChunk node lastIdx).2
    let lastChunkLen := size - lastIdx * cs
    let kept := oldChunks.keys.foldl (fun rows i => if newNumChunks ≤ i then rows.erase i else rows) f.chunkRows
    { f with
      row := { f.row with size, chunkSize := cs, sha256 := none, contentSha256 := none }
      chunkRows :=
        if (0 < newNumChunks ∧ size < f.row.size ∧ (oldChunks.lookup lastIdx).isSome) ∧
            lastChunkLen < lastChunkData.length then
          kept.insert lastIdx { sha256 := some (lastChunkData.take lastChunkLen) }
        else kept }

/-- `TruncateFile`, with no other call in between; `none` is EINVAL. -/
def truncateFile (size : Int) : File :=
  let f := f.truncateStaged limits size
  if size < 0 then f else f.truncateRows limits size.toNat

end File

/-! Punching holes. -/

structure Punch where
  offset : Nat
  length : Nat
  keepSize : Bool
  deriving DecidableEq, Repr

def Punch.stop (p : Punch) : Nat := p.offset + p.length

namespace File

/-- Zero the range in chunk `i`; a chunk that is covered as a whole goes. -/
def punchChunk (cs punchStart punchEnd : Nat) (f : File) (node : CachedInode)
    (rows : AList fun _ : Nat => FileChunk) (i : Nat) : AList fun _ : Nat => FileChunk :=
  let chunkStart := i * cs
  if (node.chunks.lookup i).isNone then rows
  else if punchStart ≤ chunkStart ∧ chunkStart + cs ≤ punchEnd then rows.erase i
  else
    let chunkData := (f.readChunk node i).2
    let overlapStart := punchStart - chunkStart
    let overlapEnd := min (punchEnd - chunkStart) chunkData.length
    if overlapStart < overlapEnd then rows.insert i { sha256 := some (zeroRange chunkData overlapStart overlapEnd) }
    else rows

/-- `PunchHole` after its sync, one transaction. -/
def punchRows (p : Punch) : File :=
  let node := f.ensureInodeChunksLoaded f.getOrLoadInode
  let currSize := f.row.size
  let newSize := if !p.keepSize ∧ currSize < p.stop then p.stop else currSize
  let punchEnd := if p.keepSize ∧ currSize < p.stop then currSize else p.stop
  let cs := limits.chunkSizeOf f.row
  if p.keepSize ∧ currSize ≤ p.offset then f
  else if node.inlineData ≠ [] then
    if newSize ≤ limits.maxInlineLen then
      let grown := if node.inlineData.length < newSize then resize newSize node.inlineData else node.inlineData
      let inlineData := zeroRange grown p.offset punchEnd
      { f with
        row := { f.row with
          size := newSize, sha256 := none, contentSha256 := some inlineData, manifestSha256 := false }
        chunkRows := f.chunkRows.insert 0 { inlineData } }
    else
      let chunk0 := (zeroRange (resize cs node.inlineData) p.offset punchEnd).take (min node.inlineData.length cs)
      { f with
        row := { size := newSize, chunkSize := cs }
        chunkRows := f.chunkRows.insert 0 { sha256 := some chunk0 } }
  else
    { f with
      row := { size := newSize, chunkSize := cs }
      chunkRows :=
        if p.offset < punchEnd then
          (chunkRange cs p.offset punchEnd).foldl (f.punchChunk cs p.offset punchEnd node) f.chunkRows
        else f.chunkRows }

/-- `PunchHole`, with no other call in between; an empty range is EINVAL. -/
def punchHole (p : Punch) : File :=
  if p.length = 0 then f else (f.fsync limits).punchRows limits p

/-! Overwriting. -/

/-- `CreateFile` on a name the file has. -/
def createFile (content : List UInt8) : File :=
  let cs := limits.chunkSizeOf f.row
  let isInline := content.length ≤ limits.maxInlineLen
  let numChunks := (content.length + cs - 1) / cs
  { f with
    row := {
      size := content.length
      chunkSize := cs
      contentSha256 := if content = [] then none else some content
      manifestSha256 := if isInline then false else f.row.manifestSha256 }
    chunkRows :=
      if isInline then
        let cleared := f.chunkRows.keys.foldl (fun rows i => rows.erase i) f.chunkRows
        if content = [] then cleared else cleared.insert 0 { inlineData := content }
      else
        let cleared := f.chunkRows.keys.foldl (fun rows i => if i < numChunks then rows else rows.erase i) f.chunkRows
        (List.range numChunks).foldl
          (fun rows i => rows.insert i { sha256 := some (slice content (i * cs) ((i + 1) * cs)) }) cleared }

end File

end InClusterStorage.Controller
