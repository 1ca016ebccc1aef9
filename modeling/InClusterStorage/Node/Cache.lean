import InClusterStorage.Controller.FileContent

/- The write-back cache of a node (`fuse/cache.go`): for each inode the chunks that are
   resident, which of them are dirty, and the size the node takes the file to have.

   Every local change takes the next number of a counter of the cache, its generation. A
   chunk is marked dirty with the generation of the write that changed it last. A reply
   that comes from the controller carries the generation its request found, and is dropped
   if the entry has a newer one.

   Each definition is one section of `mu`. `now` is what `time.Now` returns; no order of the
   times is assumed. The field `Data` is left out: no caller of `Put` gives it bytes; so are the
   stream positions of the entries. Sizes, offsets and generations are not cut to 64 bits. -/
namespace InClusterStorage.Node

open Bytes Table
open Controller (chunkRange expectedChunkLength)

@[irreducible] def defaultChunkSize : Nat := 64 * 1024

structure CachedEntry where
  size : Nat
  lastRead : Nat
  chunkSize : Nat := defaultChunkSize
  chunks : AList fun _ : Nat => List UInt8 := ∅
  dirtyChunks : AList fun _ : Nat => Nat := ∅
  generation : Nat := 0
  /-- the generation of a size the controller has not acknowledged; 0 if there is none -/
  sizeGen : Nat := 0

/-- A copy of the dirty chunks of an entry. -/
structure DirtyChunks where
  chunks : AList fun _ : Nat => List UInt8
  gens : AList fun _ : Nat => Nat
  chunkSize : Nat
  size : Nat

namespace CachedEntry

variable (e : CachedEntry)

def Dirty : Prop := 0 < e.dirtyChunks.entries.length ∨ e.sizeGen ≠ 0

instance (e : CachedEntry) : Decidable e.Dirty := inferInstanceAs (Decidable (_ ∨ _))

def chunkSizeOf : Nat := if e.chunkSize = 0 then defaultChunkSize else e.chunkSize

def entryBytes : Int :=
  e.chunks.entries.foldl (fun total chunk => total + chunk.2.length) 0

/-- The bytes of the chunks that are marked dirty. -/
def dirtyEntryBytes : Int :=
  e.chunks.entries.foldl (fun total chunk =>
    if (e.dirtyChunks.lookup chunk.1).isSome then total + chunk.2.length else total) 0

/-- What a range takes from chunk `i`; beyond the end of the chunk's buffer it is zero. -/
def rangePart (offset stop i : Nat) (chunk : List UInt8) : List UInt8 :=
  let chunkStart := i * e.chunkSizeOf
  let rStart := offset - chunkStart
  let rEnd := min (stop - chunkStart) (expectedChunkLength e.chunkSizeOf e.size i)
  (List.range' rStart (rEnd - rStart)).map (byteAt chunk)

/-- The chunks of a range, one after the other; there is no answer if one is missing. -/
def rangeParts (e : CachedEntry) (offset stop : Nat) : List Nat → Option (List UInt8)
  | [] => some []
  | i :: rest => match e.chunks.lookup i with
    | none => none
    | some chunk => (e.rangeParts offset stop rest).map (e.rangePart offset stop i chunk ++ ·)

def range (offset length : Nat) : Option (List UInt8) :=
  if e.size ≤ offset then some []
  else
    let stop := if length = 0 ∨ e.size < offset + length then e.size else offset + length
    e.rangeParts offset stop (chunkRange e.chunkSizeOf offset stop)

/-- The buffer of chunk `i` after a write: it is filled up with zeros to the length the
chunk has in a file of the new size, and then written. -/
def writtenChunk (cs newSize offset : Nat) (data : List UInt8) (i : Nat) (chunk : List UInt8) : List UInt8 :=
  let chunkStart := i * cs
  let expectedChunkLen := expectedChunkLength cs newSize i
  let chunkBuf := if chunk.length < expectedChunkLen then resize expectedChunkLen chunk else chunk
  overwrite chunkBuf (offset - chunkStart) (slice data (chunkStart - offset) (min (chunkStart + cs - offset) data.length))

def write (offset : Nat) (data : List UInt8) (gen : Nat) (now : Nat) (e : CachedEntry) : CachedEntry :=
  let cs := e.chunkSizeOf
  let newSize := max (offset + data.length) e.size
  let touched := chunkRange cs offset (offset + data.length)
  { e with
    size := newSize
    lastRead := now
    chunkSize := cs
    chunks := touched.foldl (fun chunks i =>
      chunks.insert i (writtenChunk cs newSize offset data i ((e.chunks.lookup i).getD []))) e.chunks
    dirtyChunks := touched.foldl (fun dirty i => dirty.insert i gen) e.dirtyChunks
    generation := gen }

/-- Chunks behind the new end go, also if they are dirty; the last one is cut. -/
def truncate (size : Nat) (gen : Nat) (now : Nat) (e : CachedEntry) : CachedEntry :=
  let cs := e.chunkSizeOf
  let numChunks := (size + cs - 1) / cs
  { e with
    size := size
    lastRead := now
    chunks := filterMap (fun i chunk =>
      if numChunks ≤ i then none
      else if i + 1 = numChunks then some (chunk.take (size - i * cs))
      else some chunk) e.chunks
    dirtyChunks := select (fun i => i < numChunks) e.dirtyChunks
    generation := gen
    sizeGen := gen }

/-- A chunk the hole covers goes. Of the others that it meets, the clean ones go, so that
they are fetched again, and the dirty ones are zeroed in place. -/
def punchChunk (punchStart punchEnd i : Nat) (chunk : List UInt8) : Option (List UInt8) :=
  let cStart := i * e.chunkSizeOf
  let cEnd := cStart + e.chunkSizeOf
  if punchStart ≤ cStart ∧ cEnd ≤ punchEnd then none
  else if punchStart < cEnd ∧ cStart < punchEnd then
    if (e.dirtyChunks.lookup i).isSome then some (zeroRange chunk (punchStart - cStart) (punchEnd - cStart)) else none
  else some chunk

/-- The hole may only lengthen the file if its size is not to be kept. -/
def PunchGrows (offset length : Nat) (keepSize : Bool) (e : CachedEntry) : Prop :=
  keepSize = false ∧ e.size < offset + length

instance (offset length : Nat) (keepSize : Bool) (e : CachedEntry) : Decidable (e.PunchGrows offset length keepSize) :=
  inferInstanceAs (Decidable (_ ∧ _))

def punchEnd (offset length : Nat) (keepSize : Bool) (e : CachedEntry) : Nat :=
  if keepSize = true ∧ e.size < offset + length then e.size else offset + length

def punchHole (offset length : Nat) (keepSize : Bool) (gen now : Nat) (e : CachedEntry) : CachedEntry :=
  let punchEnd := e.punchEnd offset length keepSize
  { e with
    size := if e.PunchGrows offset length keepSize then offset + length else e.size
    lastRead := now
    chunks := if offset < punchEnd then filterMap (e.punchChunk offset punchEnd) e.chunks else e.chunks
    dirtyChunks :=
      if offset < punchEnd then
        select (fun i => ¬ ((e.chunks.lookup i).isSome ∧
          offset ≤ i * e.chunkSizeOf ∧ i * e.chunkSizeOf + e.chunkSizeOf ≤ punchEnd)) e.dirtyChunks
      else e.dirtyChunks
    generation := gen
    sizeGen := if e.PunchGrows offset length keepSize then gen else e.sizeGen }

/-- A chunk from the controller is not taken over one that is dirty, nor behind the end of
a file that is changed locally. -/
def Keeps (chunkIdx chunkStart : Nat) (e : CachedEntry) : Prop :=
  (e.dirtyChunks.lookup chunkIdx).isSome ∨ e.Dirty ∧ e.size ≤ chunkStart

instance (chunkIdx chunkStart : Nat) (e : CachedEntry) : Decidable (e.Keeps chunkIdx chunkStart) :=
  inferInstanceAs (Decidable (_ ∨ _))

/-- What is taken of a chunk from the controller. -/
def taken (chunkStart : Nat) (data : List UInt8) (e : CachedEntry) : List UInt8 :=
  if e.Dirty then data.take (e.size - chunkStart) else data

/-- A file that is clean also takes its size from the controller, if that is larger. -/
def fill (chunkIdx chunkSize totalSize : Nat) (data : List UInt8) (now : Nat) (e : CachedEntry) : CachedEntry :=
  { e with
    size := if ¬ e.Dirty ∧ e.size < totalSize then totalSize else e.size
    lastRead := now
    chunkSize := chunkSize
    chunks := e.chunks.insert chunkIdx (e.taken (chunkIdx * chunkSize) data) }

def getDirtyChunks : DirtyChunks where
  chunks := select (fun i => (e.dirtyChunks.lookup i).isSome) e.chunks
  gens := select (fun i => (e.chunks.lookup i).isSome) e.dirtyChunks
  chunkSize := e.chunkSizeOf
  size := e.size

def markChunkClean (chunkIdx : Nat) (gen : Nat) (e : CachedEntry) : CachedEntry :=
  match e.dirtyChunks.lookup chunkIdx with
  | some dirtyGen => if dirtyGen ≤ gen then { e with dirtyChunks := e.dirtyChunks.erase chunkIdx } else e
  | none => e

def markSizeClean (gen : Nat) (e : CachedEntry) : CachedEntry :=
  if e.sizeGen ≤ gen then { e with sizeGen := 0 } else e

end CachedEntry

structure NodeCache where
  entries : AList fun _ : Nat => CachedEntry := ∅
  maxBytes : Int
  curBytes : Int := 0
  dirtyBytes : Int := 0
  curGen : Nat := 0

namespace NodeCache

variable (inode : Nat) (c : NodeCache)

/-- `NewNodeCache`. -/
def new (maxBytes : Int) : NodeCache :=
  { maxBytes := if maxBytes ≤ 0 then 128 * 1024 * 1024 else maxBytes }

/-- The entry takes the place of the one before, and the counters follow the bytes that
come and go with it. -/
def store (old entry : CachedEntry) (c : NodeCache) : NodeCache :=
  { c with
    entries := c.entries.insert inode entry
    curBytes := c.curBytes + (entry.entryBytes - old.entryBytes)
    dirtyBytes := c.dirtyBytes + (entry.dirtyEntryBytes - old.dirtyEntryBytes) }

/-- Change the entry of an inode, if it has one. -/
def modifyEntry (f : CachedEntry → CachedEntry) (c : NodeCache) : NodeCache :=
  match c.entries.lookup inode with
  | none => c
  | some entry => c.store inode entry (f entry)

/-- Delete a clean entry. -/
def dropEntry : NodeCache :=
  match c.entries.lookup inode with
  | none => c
  | some entry => { c with entries := c.entries.erase inode, curBytes := c.curBytes - entry.entryBytes }

/-! Eviction. -/

/-- The clean entry that was read the longest time ago, and when. -/
def oldestClean : List ((_ : Nat) × CachedEntry) → Option (Nat × Nat)
  | [] => none
  | ⟨inode, entry⟩ :: rest =>
    if entry.Dirty then oldestClean rest
    else match oldestClean rest with
      | none => some (inode, entry.lastRead)
      | some (oldest, time) => if time < entry.lastRead then some (oldest, time) else some (inode, entry.lastRead)

/-- The loop of `evictIfNeededLocked`; every turn deletes an entry. -/
def evictEntries (neededBytes : Int) : Nat → NodeCache → NodeCache
  | 0, c => c
  | turns + 1, c =>
    if c.curBytes + neededBytes ≤ c.maxBytes then c
    else match oldestClean c.entries.entries with
      | none => c
      | some (inode, _) => if inode = 0 then c else evictEntries neededBytes turns (c.dropEntry inode)

def evictIfNeededLocked (neededBytes : Int) (c : NodeCache) : NodeCache :=
  evictEntries neededBytes c.entries.entries.length c

/-! Reading. -/

def touch (inode now : Nat) (c : NodeCache) : NodeCache :=
  match c.entries.lookup inode with
  | none => c
  | some entry => { c with entries := c.entries.insert inode { entry with lastRead := now } }

def getRange (inode offset length now : Nat) (c : NodeCache) : NodeCache × Option (List UInt8) :=
  (c.touch inode now, (c.entries.lookup inode).bind (·.range offset length))

def getGeneration : Nat :=
  match c.entries.lookup inode with
  | some entry => entry.generation
  | none => c.curGen

def getChunk (inode chunkIdx now : Nat) (c : NodeCache) : NodeCache × Option (List UInt8) :=
  match (c.entries.lookup inode).bind (·.chunks.lookup chunkIdx) with
  | none => (c, none)
  | some chunk => (c.touch inode now, some chunk)

def getSize : Option Nat := (c.entries.lookup inode).map (·.size)

/-! A reply of the controller. -/

/-- The entry `PutChunk` puts the chunk into, unless the reply is older than it. -/
def entryFor (inode chunkSize totalSize : Nat) (gen : Nat) (now : Nat) (c : NodeCache) : CachedEntry :=
  match c.entries.lookup inode with
  | some entry => entry
  | none => { size := totalSize, lastRead := now, chunkSize, generation := gen }

def putChunk (inode chunkIdx chunkSize totalSize : Nat) (data : List UInt8) (gen : Nat) (now : Nat)
    (c : NodeCache) : NodeCache :=
  let chunkSize := if chunkSize = 0 then defaultChunkSize else chunkSize
  if gen < c.getGeneration inode then c
  else
    let entry := c.entryFor inode chunkSize totalSize gen now
    let c := if (c.entries.lookup inode).isSome then c else { c with entries := c.entries.insert inode entry }
    if entry.Keeps chunkIdx (chunkIdx * chunkSize) then c
    else
      let dataLen : Int := (entry.taken (chunkIdx * chunkSize) data).length
      let c := { c with curBytes := c.curBytes - ((entry.chunks.lookup chunkIdx).getD []).length }
      let c := c.evictIfNeededLocked dataLen
      -- the entry itself may have been evicted; it is then filled, but no longer in the map
      { c with
        entries :=
          if (c.entries.lookup inode).isSome then
            c.entries.insert inode (entry.fill chunkIdx chunkSize totalSize data now)
          else c.entries
        curBytes := c.curBytes + dataLen }

/-! Local changes. -/

def writeAt (inode offset : Nat) (data : List UInt8) (now : Nat) (c : NodeCache) : NodeCache :=
  let gen := c.curGen + 1
  let entry := (c.entries.lookup inode).getD { size := 0, lastRead := now }
  let c := { c with curGen := gen }
  (c.store inode entry (entry.write offset data gen now)).evictIfNeededLocked 0

def truncate (inode size now : Nat) (c : NodeCache) : NodeCache × Nat :=
  let gen := c.curGen + 1
  let c := { c with curGen := gen }
  match c.entries.lookup inode with
  | none =>
    ({ c with entries := c.entries.insert inode { size, lastRead := now, generation := gen, sizeGen := gen } }, gen)
  | some entry => (c.store inode entry (entry.truncate size gen now), gen)

def punchHole (inode offset length : Nat) (keepSize : Bool) (now : Nat) (c : NodeCache) : NodeCache × Nat :=
  let gen := c.curGen + 1
  (({ c with curGen := gen }).modifyEntry inode (·.punchHole offset length keepSize gen now), gen)

/-! Write-back. -/

def getDirtyChunks : Option DirtyChunks :=
  match c.entries.lookup inode with
  | none => none
  | some entry => if entry.dirtyChunks.entries.length = 0 then none else some entry.getDirtyChunks

def getDirtySize : Option (Nat × Nat) :=
  match c.entries.lookup inode with
  | none => none
  | some entry => if entry.sizeGen = 0 then none else some (entry.size, entry.sizeGen)

/-- `GetDirtyEntries`, of which the callers use the inodes. -/
def getDirtyEntries : List Nat :=
  (c.entries.entries.filter fun e => e.2.Dirty).map Sigma.fst

def isInodeDirty : Bool :=
  match c.entries.lookup inode with
  | none => false
  | some entry => entry.Dirty

def wouldDirtyOverflow (addedBytes : Nat) (c : NodeCache) : Bool := c.maxBytes < c.dirtyBytes + addedBytes

def markChunkClean (inode chunkIdx : Nat) (gen : Nat) (c : NodeCache) : NodeCache :=
  c.modifyEntry inode (·.markChunkClean chunkIdx gen)

def markSizeClean (gen : Nat) (c : NodeCache) : NodeCache :=
  c.modifyEntry inode (·.markSizeClean gen)

/-! Invalidation. -/

def invalidateIfNotDirty : NodeCache :=
  match c.entries.lookup inode with
  | none => c
  | some entry => if entry.Dirty then c else c.dropEntry inode

def invalidateAllClean : NodeCache := c.entries.keys.foldl (fun c inode => c.invalidateIfNotDirty inode) c

end NodeCache

end InClusterStorage.Node
