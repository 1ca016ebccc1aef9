import InClusterStorage.Lib.Runs
import InClusterStorage.Node.Push

/- One file as one node sees it (`fuse/fs.go`): the calls of `ObjectFS` that read and change
   its data, over the node's cache and a controller that is an array of bytes.

   The controller takes a `WriteFile`, a `TruncateFile` or a `PunchHole` at once, no call
   fails, and the node is its only client. `content` is the array of bytes that the calls
   should amount to; no call reads it.

   With a disk cache the node reads by the manifest of the file: inline data, or a digest
   for each chunk. A digest is modelled by the bytes it is the digest of, so that a blob has
   the same bytes wherever it comes from, and what is on the disk does not matter; the event
   says for which chunks a blob can be had. The controller answers `GetManifest` with any
   manifest that describes the file. Prefetching, which only fills the disk cache, is left
   out. -/
namespace InClusterStorage.Node

open Bytes
open Controller (chunkRange expectedChunkLength)

/-- `fileManifest`. A digest that is not there (a hole) is `none`. -/
structure Manifest where
  chunkSize : Nat
  totalSize : Nat
  chunkSHAs : List (Option (List UInt8)) := []
  inlineData : List UInt8 := []

/-- The bytes are those of chunk `i` of the file, without zeros at its end. -/
def IsChunk (file : List UInt8) (i : Nat) (data : List UInt8) : Prop :=
  data.length ≤ defaultChunkSize ∧ (data = [] ∨ i * defaultChunkSize + data.length ≤ file.length) ∧
    ∀ q, q < defaultChunkSize → byteAt data q = byteAt file (i * defaultChunkSize + q)

instance (file : List UInt8) (i : Nat) (data : List UInt8) : Decidable (IsChunk file i data) :=
  inferInstanceAs (Decidable (_ ∧ _ ∧ ∀ q, q < defaultChunkSize → _))

namespace Manifest

/-- The digest of a chunk. -/
def sha (m : Manifest) (i : Nat) : Option (List UInt8) := (m.chunkSHAs[i]?).getD none

/-- What `GetManifest` may say of a file. -/
structure Describes (m : Manifest) (file : List UInt8) : Prop where
  chunkSize : m.chunkSize = defaultChunkSize
  totalSize : m.totalSize = file.length
  shas : ∀ i, i < m.chunkSHAs.length → ∀ data ∈ m.sha i, IsChunk file i data
  inline : m.inlineData ≠ [] → IsChunk file 0 m.inlineData

instance (m : Manifest) (file : List UInt8) : Decidable (m.Describes file) :=
  decidable_of_iff
    (m.chunkSize = defaultChunkSize ∧ m.totalSize = file.length ∧
      (∀ i, i < m.chunkSHAs.length → ∀ data ∈ m.sha i, IsChunk file i data) ∧
      (m.inlineData ≠ [] → IsChunk file 0 m.inlineData))
    ⟨fun h => ⟨h.1, h.2.1, h.2.2.1, h.2.2.2⟩, fun h => ⟨h.1, h.2, h.3, h.4⟩⟩

end Manifest

/-- The sections of the fetches of a `Read`, which run side by side. -/
inductive Fetch where
  /-- the generation is taken -/
  | ask (i : Nat)
  /-- the reply enters the cache -/
  | put (i : Nat)
  deriving DecidableEq, Repr

/-- What a `Read` does not decide itself. -/
structure ReadEnv where
  now : Nat
  /-- the loaded manifest is older than five minutes -/
  expired : Bool
  /-- the answer to `GetManifest` -/
  manifest : Manifest
  /-- the chunks whose blob is on the disk or can be fetched -/
  blobs : List Nat
  fetches : List Fetch

/-- The file, at the node and at the controller. -/
structure FileState where
  cache : NodeCache
  manifest : Option Manifest := none
  /-- the controller's bytes -/
  file : List UInt8
  /-- what the calls amount to -/
  content : List UInt8

/-- The inode of the file, and whether the node has a disk cache. -/
structure FileConfig where
  inode : Nat
  diskCache : Bool

namespace FileConfig

variable (cfg : FileConfig)

/-! Reading. -/

def getOrLoadManifest (env : ReadEnv) (s : FileState) : FileState × Option Manifest :=
  if cfg.diskCache = false then (s, none)
  else match s.manifest with
    | some m => if env.expired then ({ s with manifest := some env.manifest }, some env.manifest) else (s, some m)
    | none => ({ s with manifest := some env.manifest }, some env.manifest)

/-- `ReadFile` at the controller, from `offset` on. -/
def readFile (file : List UInt8) (offset size : Nat) : List UInt8 := slice file offset (offset + size)

/-- The bytes of a chunk that are at hand: in memory, inline, or in a blob. -/
def localChunk (m : Option Manifest) (env : ReadEnv) (cache : NodeCache) (i : Nat) : Option (List UInt8) :=
  match (cache.entries.lookup cfg.inode).bind (·.chunks.lookup i) with
  | some chunk => some chunk
  | none => match m with
    | none => none
    | some m =>
      if m.inlineData ≠ [] ∧ i = 0 then some m.inlineData
      else if i ∈ env.blobs then m.sha i else none

/-- One section of the fetches. Only replies from `ReadFile` come here; with a disk cache
they are stored there and not in memory. -/
def fetchStep (file : List UInt8) (cs now : Nat) (uncached : List Nat) (s : NodeCache × List (Nat × Nat)) :
    Fetch → NodeCache × List (Nat × Nat)
  | .ask i => if i ∈ uncached then (s.1, (i, s.1.getGeneration cfg.inode) :: s.2) else s
  | .put i =>
    match s.2.lookup i with
    | none => s
    | some readGen =>
      let fetchedData := readFile file (i * cs) cs
      let eof := file.length ≤ i * cs + fetchedData.length
      if (fetchedData.length = cs ∨ eof) ∧ fetchedData ≠ [] ∧ cfg.diskCache = false then
        (s.1.putChunk cfg.inode i cs file.length fetchedData readGen now, s.2)
      else s

/-- What the result takes of a chunk. -/
def readPart (cs offset size totalSize i : Nat) (chunkData : List UInt8) : List UInt8 :=
  let chunkStart := i * cs
  let expectedLen := expectedChunkLength cs totalSize i
  let chunkData := if 0 < totalSize ∧ chunkData.length < expectedLen then resize expectedLen chunkData else chunkData
  slice chunkData (offset - chunkStart) (min (offset + size - chunkStart) cs)

/-- The chunk size a read goes by. -/
def chunkSizeOf : Option Manifest → Nat
  | some m => if 0 < m.chunkSize then m.chunkSize else defaultChunkSize
  | none => defaultChunkSize

/-- The size that is known before chunks are fetched. -/
def knownSize (m : Option Manifest) (cache : NodeCache) : Nat :=
  match cache.getSize cfg.inode with
  | some clientSize => clientSize
  | none => match m with
    | some m => m.totalSize
    | none => 0

/-- `Read` where the cache does not have all of the range. -/
def readChunks (offset size : Nat) (env : ReadEnv) (s : FileState) : FileState × List UInt8 :=
  let loaded := cfg.getOrLoadManifest env s
  let s := loaded.1
  let m := loaded.2
  let cs := chunkSizeOf m
  let chunks := chunkRange cs offset (offset + size)
  let cache := chunks.foldl (fun cache i => (cache.getChunk cfg.inode i env.now).1) s.cache
  let uncached := chunks.filter fun i => (cfg.localChunk m env s.cache i).isNone
  let totalSize := if uncached = [] then cfg.knownSize m s.cache else max (cfg.knownSize m s.cache) s.file.length
  let chunkData := fun i => (cfg.localChunk m env s.cache i).getD (readFile s.file (i * cs) cs)
  ({ s with cache := (env.fetches.foldl (cfg.fetchStep s.file cs env.now uncached) (cache, [])).1 },
    chunks.flatMap fun i => readPart cs offset size totalSize i (chunkData i))

/-- `Read` with a size that is not 0. -/
def read (offset size : Nat) (env : ReadEnv) (s : FileState) : FileState × List UInt8 :=
  match s.cache.getRange cfg.inode offset size env.now with
  | (cache, some bytes) => ({ s with cache }, bytes)
  | (cache, none) => cfg.readChunks offset size env { s with cache }

/-! Write-back. -/

/-- `pushDirtyChunksToStaging`: the state, the runs to mark clean and their generations. -/
def pushDirtyChunksToStaging (s : FileState) : FileState × List (List Nat) × (AList fun _ : Nat => Nat) :=
  let s := match s.cache.getDirtySize cfg.inode with
    | none => s
    | some (dirtySize, sizeGen) =>
      { s with file := resize dirtySize s.file, cache := s.cache.markSizeClean cfg.inode sizeGen }
  match s.cache.getDirtyChunks cfg.inode with
  | none => (s, [], ∅)
  | some d =>
    let cache := d.beyond.foldl (fun cache i => cache.markChunkClean cfg.inode i ((d.gens.lookup i).getD 0)) s.cache
    ({ s with cache, file := d.runs.foldl d.sendRun s.file }, d.runs, d.gens)

def completeSync (runs : List (List Nat)) (gens : AList fun _ : Nat => Nat) (s : FileState) : FileState :=
  { s with
    cache := runs.flatten.foldl (fun cache i => cache.markChunkClean cfg.inode i ((gens.lookup i).getD 0)) s.cache
    manifest := none }

/-- With a disk cache, clean chunks are kept there only. -/
def dropClean (s : FileState) : FileState :=
  if cfg.diskCache then { s with cache := s.cache.invalidateAllClean } else s

/-- `syncAndFsyncLocked` with `blocking` set; `Fsync` at the controller changes no bytes. -/
def syncAndFsync (s : FileState) : FileState :=
  let (s, runs, gens) := cfg.pushDirtyChunksToStaging s
  cfg.dropClean (cfg.completeSync runs gens s)

/-- `syncVolumeBlocking` and `syncVolumeNonBlocking`. -/
def syncVolume (s : FileState) : FileState :=
  if s.cache.isInodeDirty cfg.inode = false then s
  else
    let (s, runs, gens) := cfg.pushDirtyChunksToStaging s
    if runs = [] then s else cfg.dropClean (cfg.completeSync runs gens s)

/-! Local changes. -/

/-- Fetch a chunk that a write covers in part, if it is not in memory. -/
def readIn (file : List UInt8) (offset stop now : Nat) (cache : NodeCache) (i : Nat) : NodeCache :=
  let chunkStart := i * defaultChunkSize
  let chunkEnd := chunkStart + defaultChunkSize
  let wStart := max offset chunkStart
  let wEnd := min stop chunkEnd
  if chunkStart < wStart ∨ wEnd < chunkEnd then
    if ∃ clientSize ∈ cache.getSize cfg.inode, clientSize ≤ chunkStart then cache
    else match cache.getChunk cfg.inode i now with
      | (cache, some _) => cache
      | (cache, none) =>
        let data := readFile file chunkStart defaultChunkSize
        if data = [] then cache
        else cache.putChunk cfg.inode i defaultChunkSize file.length data (cache.getGeneration cfg.inode) now
  else cache

/-- `Write` up to `WriteAt`. -/
def prepareWrite (offset : Nat) (data : List UInt8) (now : Nat) (s : FileState) : FileState :=
  let chunks := chunkRange defaultChunkSize offset (offset + data.length)
  let s := { s with cache := chunks.foldl (cfg.readIn s.file offset (offset + data.length) now) s.cache }
  if s.cache.wouldDirtyOverflow data.length then cfg.syncVolume s else s

/-- `Write` without `WRITE_CACHE`. -/
def write (offset : Nat) (data : List UInt8) (now : Nat) (s : FileState) : FileState :=
  let s := cfg.prepareWrite offset data now s
  { s with cache := s.cache.writeAt cfg.inode offset data now, content := splice s.content offset data }

/-- `SetAttr` of the size. -/
def setSize (size now : Nat) (s : FileState) : FileState :=
  let s := cfg.syncAndFsync s
  let (cache, truncGen) := s.cache.truncate cfg.inode size now
  { s with
    cache := cache.markSizeClean cfg.inode truncGen
    manifest := none
    file := resize size s.file
    content := resize size s.content }

/-- `Fallocate` with `FALLOC_FL_PUNCH_HOLE` and `FALLOC_FL_KEEP_SIZE`. -/
def punchHole (offset length now : Nat) (s : FileState) : FileState :=
  if length = 0 then s
  else
    let s := cfg.syncAndFsync s
    let (cache, punchGen) := s.cache.punchHole cfg.inode offset length true now
    { s with
      cache := cache.markSizeClean cfg.inode punchGen
      manifest := none
      file := zeroRange s.file offset (offset + length)
      content := zeroRange s.content offset (offset + length) }

/-- `Flush`: the bytes are sent, but stay dirty. -/
def flush (s : FileState) : FileState := (cfg.pushDirtyChunksToStaging s).1

end FileConfig

/-! Runs. -/

inductive FileCall where
  | read (offset size : Nat) (env : ReadEnv)
  | write (offset : Nat) (data : List UInt8) (now : Nat)
  | setSize (size now : Nat)
  | punchHole (offset length now : Nat)
  | flush
  | fsync
  | syncVolume

def FileConfig.step (cfg : FileConfig) (s : FileState) : FileCall → Option FileState
  | .read offset size env =>
    if 0 < size ∧ env.manifest.Describes s.file then some (cfg.read offset size env s).1 else none
  | .write offset data now => if data = [] then none else some (cfg.write offset data now s)
  | .setSize size now => some (cfg.setSize size now s)
  | .punchHole offset length now => some (cfg.punchHole offset length now s)
  | .flush => some (cfg.flush s)
  | .fsync => some (cfg.syncAndFsync s)
  | .syncVolume => some (cfg.syncVolume s)

def FileState.start (maxBytes : Int) (content : List UInt8) : FileState :=
  { cache := .new maxBytes, file := content, content }

/-- A `Read` issued now returns the bytes of the content, and after a `Fsync` the controller
has them. -/
structure OwnWritesVisible (cfg : FileConfig) (s : FileState) : Prop where
  reads : ∀ offset size env, 0 < size → env.manifest.Describes s.file →
    (cfg.read offset size env s).2 = slice s.content offset (offset + size)
  synced : (cfg.syncAndFsync s).file = s.content

end InClusterStorage.Node
