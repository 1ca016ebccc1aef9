import Mathlib.Data.List.Sort
import InClusterStorage.Lib.TxLog
import InClusterStorage.Controller.Namespace

/- The metadata of a volume and how it is recovered (`volume.go`).

   Committed transactions go to the metadata stream and to the index behind the view. A
   snapshot is the index at its position, stored under a key that the position
   determines, and the stream gets a pointer to it. Recovery loads the latest snapshot
   and replays the stream from its position on; a pointer that says where it was restored
   from replaces the index on the way. `rebuildIndex` does the same once more for an index
   that has failed, with a root row and statistics of its own.

   The stream is the authoritative tail together with the local records after it, and
   the overlay of the view is flushed. Times, and the counts in the statistics row, are
   left out; so are digests and sizes, which no function here reads. -/
namespace InClusterStorage.Controller

/-! Rows. -/

inductive RowKey where
  | inode (ino : Nat)
  | dirEntry (parent : Nat) (name : Name)
  | fileChunk (ino index : Nat)
  | xattr (ino : Nat) (name : Name)
  | volumeInfo
  deriving DecidableEq, Repr

/-- What recovery reads of an inode row. -/
structure InodeRow where
  isDir : Bool
  mode : Nat
  nlink : Nat
  parentIno : Option Nat := none
  xattrCount : Option Nat := none
  deriving DecidableEq, Repr

inductive Row where
  | inode (row : InodeRow)
  | value (bytes : List UInt8)
  deriving DecidableEq, Repr

/-- A change without a row is a delete. -/
structure RowChange where
  key : RowKey
  row : Option Row
  deriving DecidableEq, Repr

abbrev Rows := AList fun _ : RowKey => Row

def RowChange.apply (c : RowChange) (rows : Rows) : Rows :=
  match c.row with
  | some row => rows.insert c.key row
  | none => rows.erase c.key

def rootIno : Nat := 1

/-- The root of a volume without snapshots, as `LoadFromBackend` writes it. -/
def loadedRoot : InodeRow := { isDir := true, mode := 0o755 ||| Volume.sIfdir, nlink := 2, xattrCount := some 0 }

/-- The root as `rebuildIndex` writes it. -/
def rebuiltRoot : InodeRow := { isDir := true, mode := 0o755 ||| Volume.sIfdir, nlink := 2, parentIno := some 1 }

/-! The index. -/

structure Index where
  rows : Rows := ∅
  /-- of the statistics row -/
  maxIno : Nat := 0
  position : Nat := 0

/-- The key under which the statistics row is stored: field 1, the name `volume`. -/
def statsRowKey : List UInt8 := [10, 6, 118, 111, 108, 117, 109, 101]

/-- The key with which it is looked for: the bytes of the name. -/
def statsPK : List UInt8 := [118, 111, 108, 117, 109, 101]

namespace Index

def getStats (key : List UInt8) (idx : Index) : Option Nat := if key = statsRowKey then some idx.maxIno else none

/-- A new inode row counts for the largest inode number. -/
def countNew (idx : Index) (c : RowChange) : Nat :=
  match c.key, idx.rows.lookup c.key, c.row with
  | .inode ino, none, some _ => max idx.maxIno ino
  | _, _, _ => idx.maxIno

def applyChange (idx : Index) (c : RowChange) : Index :=
  { idx with rows := c.apply idx.rows, maxIno := idx.countNew c }

/-- Apply changes and their statistics; each change has its number in the stream. -/
def applyChanges (idx : Index) (changes : List (Nat × RowChange)) : Index :=
  { (changes.map Prod.snd).foldl applyChange idx with
    position := changes.foldl (fun position change => max position change.1) idx.position }

/-- `ApplyBatch` on the index alone leaves the statistics as they are. -/
def applyBatch (idx : Index) (changes : List (Nat × RowChange)) : Index :=
  { idx with
    rows := (changes.map Prod.snd).foldl (fun rows c => c.apply rows) idx.rows
    position := changes.foldl (fun position change => max position change.1) idx.position }

def countMaxIno (idx : Index) : Nat :=
  idx.rows.keys.foldl (fun maxIno key => match key with
    | .inode ino => max maxIno ino
    | _ => maxIno) 0

end Index

/-! Snapshots. -/

structure SnapshotPointer where
  position : Nat
  /-- the position in the key of the object -/
  location : Nat
  name : Name
  restoredFrom : Option Nat := none
  deriving DecidableEq, Repr

abbrev StreamRecord := TxLog.Record RowChange SnapshotPointer

/-- The snapshot objects, by the position in their keys. -/
abbrev Objects := AList fun _ : Nat => Index

/-- The last part of the key: the position in 20 digits. -/
def snapshotBase (position : Nat) : Name :=
  ((List.range 20).reverse.map fun i => UInt8.ofNat (48 + position / Nat.pow 10 i % 10)) ++
    [46, 115, 113, 108, 105, 116, 101]

def snapshotKey (streamID : Name) (position : Nat) : Name :=
  [115, 116, 114, 101, 97, 109, 115, 47] ++ streamID ++
    [47, 115, 110, 97, 112, 115, 104, 111, 116, 115, 47, 115, 113, 108, 105, 116, 101, 47] ++ snapshotBase position

def findLatestSnapshot (objects : Objects) : Option Nat := objects.keys.max?

def SnapshotPointer.snapshotMatches (streamID name : Name) (ptr : SnapshotPointer) : Bool :=
  name ≠ [] && (ptr.name = name || snapshotKey streamID ptr.location = name || snapshotBase ptr.location = name)

/-! Replay. -/

/-- The index of a restore record. Neither lookup of the statistics row finds it. -/
def rebuildRestoreSnapshot (objects : Objects) (oldIdx : Option Index) (location seq highestReplayedIno : Nat) :
    Option Index :=
  let highest := match oldIdx.bind (Index.getStats statsPK) with
    | some maxIno => max maxIno highestReplayedIno
    | none => highestReplayedIno
  (objects.lookup location).map fun restored =>
    let restored := { restored with position := seq }
    match restored.getStats statsPK with
    | some maxIno => if highest > maxIno then { restored with maxIno := highest } else restored
    | none => restored

/-- The largest inode number in the changes. -/
def highestIno (highest : Nat) (changes : List (Nat × RowChange)) : Nat :=
  changes.foldl (fun highest change => match change.2.key with
    | .inode ino => max highest ino
    | _ => highest) highest

/-- What `LoadFromBackend` has read so far. -/
structure Recovering where
  index : Index
  snapshotPointers : List SnapshotPointer := []
  highestReplayedIno : Nat := 0
  replayStartPos : Nat
  replaySnapshotLocation : Option Nat

def loadReplay (objects : Objects) : TxLog.Replay RowChange SnapshotPointer Recovering where
  apply r changes :=
    { r with
      index := r.index.applyChanges changes
      highestReplayedIno := highestIno r.highestReplayedIno changes }
  mark r seq ptr :=
    match ptr.restoredFrom with
    | none => some ({ r with snapshotPointers := r.snapshotPointers ++ [ptr] }, false)
    | some location =>
      (rebuildRestoreSnapshot objects (some r.index) location seq r.highestReplayedIno).map fun restored =>
        ({ r with
          index := restored
          replayStartPos := ptr.position
          replaySnapshotLocation := some location }, true)

/-- What `rebuildIndex` has read so far. -/
structure Rebuilding where
  index : Index
  highestReplayedIno : Nat := 0

def rebuildReplay (objects : Objects) : TxLog.Replay RowChange SnapshotPointer Rebuilding where
  apply r changes :=
    { index := r.index.applyBatch changes, highestReplayedIno := highestIno r.highestReplayedIno changes }
  mark r seq ptr :=
    match ptr.restoredFrom with
    | none => some (r, false)
    | some location =>
      (rebuildRestoreSnapshot objects (some r.index) location seq r.highestReplayedIno).map fun restored =>
        ({ r with index := restored }, true)

/-! The volume. -/

structure MetaVolume where
  streamID : Name := []
  objects : Objects := ∅
  stream : List StreamRecord := []
  /-- the index behind the view; there is none after a restore that has failed half way -/
  view : Option Index := none
  nextInode : Nat := 8
  /-- of the statistics that are kept in memory -/
  liveMaxIno : Nat := 0
  nextTxID : Nat := 0
  snapshotPointers : List SnapshotPointer := []
  replayStartPos : Nat := 0
  replaySnapshotLocation : Option Nat := none
  /-- the staged chunks, by inode and index -/
  staged : AList (fun _ : Nat × Nat => List UInt8) := ∅

variable (v : MetaVolume)

namespace MetaVolume

/-- Append the records of a transaction, and apply its changes with the number of its
commit record. -/
def commitTx (changes : List RowChange) (idx : Index) (v : MetaVolume) : MetaVolume :=
  let tx := v.nextTxID + 1
  let stream := v.stream ++ TxLog.block tx changes
  let numbered := changes.map fun c => (stream.length, c)
  { v with
    stream
    nextTxID := tx
    view := some (idx.applyChanges numbered)
    liveMaxIno := ({ idx with maxIno := v.liveMaxIno }.applyChanges numbered).maxIno }

/-- The file inodes without links and their chunks. -/
def orphanChanges (rows : Rows) : List RowChange :=
  let orphans := rows.keys.filterMap fun key =>
    match key, rows.lookup key with
    | .inode ino, some (.inode row) => if row.isDir = false ∧ row.nlink = 0 then some ino else none
    | _, _ => none
  orphans.flatMap fun ino =>
    { key := .inode ino, row := none } :: rows.keys.filterMap fun key =>
      match key with
      | .fileChunk i index => if i = ino then some { key := .fileChunk i index, row := none } else none
      | _ => none

def cleanOrphanInodes (idx : Index) (v : MetaVolume) : MetaVolume :=
  if orphanChanges idx.rows = [] then v else v.commitTx (orphanChanges idx.rows) idx

def initNextInode (highestReplayedIno : Nat) (v : MetaVolume) : MetaVolume :=
  let maxIno := max v.liveMaxIno highestReplayedIno
  let next := if maxIno > 0 then max v.nextInode ((maxIno + 8) / 8 * 8) else v.nextInode
  { v with nextInode := max next 8 }

/-- The latest snapshot and its position, or an empty index. -/
def recoverFrom : Recovering :=
  match findLatestSnapshot v.objects with
  | some location =>
    { index := (v.objects.lookup location).getD {}
      replayStartPos := location
      replaySnapshotLocation := some location }
  | none => { index := {}, replayStartPos := 0, replaySnapshotLocation := none }

/-- Where the replay starts. -/
def snapPos : Nat := (findLatestSnapshot v.objects).getD 0

/-- The root of a volume without snapshots that the stream does not mention. -/
def addRoot (idx : Index) : Index :=
  if findLatestSnapshot v.objects = none ∧ idx.rows.lookup (.inode rootIno) = none then
    idx.applyChanges [(0, { key := .inode rootIno, row := some (.inode loadedRoot) })]
  else idx

/-- What recovery finds: the latest snapshot and the rest of the stream. -/
def recover : Option Recovering :=
  ((loadReplay v.objects).run (v.recoverFrom, .empty) v.snapPos (v.stream.drop v.snapPos)).map fun result =>
    { result.1 with index := v.addRoot result.1.index }

def load (r : Recovering) (v : MetaVolume) : MetaVolume :=
  { streamID := v.streamID
    objects := v.objects
    stream := v.stream
    view := some r.index
    liveMaxIno := r.index.maxIno
    snapshotPointers := r.snapshotPointers
    replayStartPos := r.replayStartPos
    replaySnapshotLocation := r.replaySnapshotLocation }

def restart : Option MetaVolume :=
  v.recover.map fun r => ((v.load r).cleanOrphanInodes r.index).initNextInode r.highestReplayedIno

/-- Where `rebuildIndex` starts: at position 0 it writes the root, whether or not there is
a snapshot. -/
def rebuildFrom : Rebuilding :=
  let index := ((findLatestSnapshot v.objects).bind v.objects.lookup).getD {}
  if v.snapPos = 0 then
    { index := index.applyBatch [(0, { key := .inode rootIno, row := some (.inode rebuiltRoot) })] }
  else { index }

/-- The statistics at the end: looked for under the wrong key, so counted again. -/
def rebuildStats (r : Rebuilding) : Index :=
  match r.index.getStats statsPK with
  | some maxIno => if r.highestReplayedIno > maxIno then { r.index with maxIno := r.highestReplayedIno } else r.index
  | none => { r.index with maxIno := r.index.countMaxIno }

def rebuildIndex : Option Index :=
  ((rebuildReplay v.objects).run (v.rebuildFrom, .empty) v.snapPos (v.stream.drop v.snapPos)).map fun result =>
    rebuildStats result.1

/-- The view takes the index over. -/
def rebuild : Option MetaVolume :=
  v.rebuildIndex.map fun idx =>
    { v with
      view := some idx
      replayStartPos := v.snapPos
      replaySnapshotLocation :=
        if v.snapPos > 0 then findLatestSnapshot v.objects else v.replaySnapshotLocation }

/-! Snapshots by name. -/

/-- The pointer to an object. Where there are several, the last one counts; where there is
none, the key tells the name. -/
def pointerTo (location : Nat) : SnapshotPointer :=
  ((v.snapshotPointers.filter fun ptr => ptr.restoredFrom = none ∧ ptr.location = location).getLast?).getD
    { position := location, location, name := snapshotBase location }

/-- One pointer for each object, in the order of their positions. -/
def listSnapshots : List SnapshotPointer :=
  (v.objects.keys.map v.pointerTo).insertionSort fun p q => p.position ≤ q.position

def findSnapshot (name : Name) (v : MetaVolume) : Option SnapshotPointer :=
  v.listSnapshots.find? fun ptr => ptr.snapshotMatches v.streamID name

/-- `GetSnapshotInfo`: the name and the position. -/
def getSnapshotInfo (name : Name) (v : MetaVolume) : Option (Name × Nat) :=
  (v.findSnapshot name).map fun ptr => (ptr.name, ptr.position)

/-- The step of `CreateSnapshot` that fails. -/
inductive CreateStep where
  | publish
  | append
  deriving DecidableEq, Repr

def createSnapshot (fault : Option CreateStep) (name : Name) (v : MetaVolume) :
    Option (MetaVolume × Except CreateStep Name) :=
  v.view.map fun idx =>
    if fault = some .publish then (v, .error .publish)
    else
      let v := { v with objects := v.objects.insert idx.position idx }
      let name := if name = [] then snapshotBase idx.position else name
      let ptr : SnapshotPointer := { position := idx.position, location := idx.position, name }
      if fault = some .append then (v, .error .append)
      else
        ({ v with
          stream := v.stream ++ [.mark ptr]
          snapshotPointers := v.snapshotPointers ++ [ptr] }, .ok name)

inductive DeleteError where
  | newestSnapshot
  | snapshotInUse
  | deleteObject
  deriving DecidableEq, Repr

def deleteSnapshot (fault : Bool) (name : Name) (v : MetaVolume) : MetaVolume × Except DeleteError Unit :=
  match v.findSnapshot name with
  | none => (v, .ok ())
  | some target =>
    if some target.location = v.listSnapshots.getLast?.map (·.location) then (v, .error .newestSnapshot)
    else if v.replayStartPos > 0 ∧ target.position = v.replayStartPos ∨
        v.replaySnapshotLocation = some target.location then (v, .error .snapshotInUse)
    else if fault then (v, .error .deleteObject)
    else
      ({ v with
        objects := v.objects.erase target.location
        snapshotPointers := v.snapshotPointers.filter fun ptr => ptr.location ≠ target.location }, .ok ())

/-- The step of `RestoreSnapshot` that fails. -/
inductive RestoreStep where
  | resetStagingDir
  | listSnapshots
  | flushOverlay
  | append
  | flush
  | closeView
  | restoreIndex
  | initView
  | publish
  deriving DecidableEq, Repr

inductive RestoreError where
  | failed (step : RestoreStep)
  | snapshotNotFound
  deriving DecidableEq, Repr

/-- The part of `RestoreSnapshot` after the restore record is appended: the index is
replaced and published. -/
def restoreIndex (fault : Option RestoreStep) (ptr : SnapshotPointer) (preRestoreMaxIno : Nat) (v : MetaVolume) :
    MetaVolume × Except RestoreError SnapshotPointer :=
  if fault = some .flush then (v, .error (.failed .flush))
  -- a view that fails to close is of no use any more
  else if fault = some .closeView then ({ v with view := none }, .error (.failed .closeView))
  else
    let restored := if fault = some .restoreIndex then none
      else rebuildRestoreSnapshot v.objects v.view ptr.location v.stream.length preRestoreMaxIno
    match restored with
    | none => ({ v with view := none }, .error (.failed .restoreIndex))
    | some idx =>
      if fault = some .initView then ({ v with view := none }, .error (.failed .initView))
      else
        let v := { v with view := some idx, liveMaxIno := idx.maxIno }.initNextInode preRestoreMaxIno
        if fault = some .publish then (v, .error (.failed .publish))
        else
          let fresh : SnapshotPointer :=
            { position := idx.position, location := idx.position, name := snapshotBase idx.position }
          ({ v with
            objects := v.objects.insert idx.position idx
            replayStartPos := idx.position
            replaySnapshotLocation := some idx.position
            snapshotPointers := v.snapshotPointers ++ [ptr, fresh] }, .ok fresh)

/-- The restore record of a snapshot. -/
def restorePointer (name : Name) (target : SnapshotPointer) : SnapshotPointer :=
  { position := target.position, location := target.location, name, restoredFrom := some target.location }

def restoreSnapshot (fault : Option RestoreStep) (name : Name) (v : MetaVolume) :
    MetaVolume × Except RestoreError SnapshotPointer :=
  -- the packs of the staged chunks are forgotten before their directory is removed
  let v := { v with staged := ∅ }
  if fault = some .resetStagingDir then (v, .error (.failed .resetStagingDir))
  else if fault = some .listSnapshots then (v, .error (.failed .listSnapshots))
  else
    match v.findSnapshot name with
    | none => (v, .error .snapshotNotFound)
    | some target =>
      if fault = some .flushOverlay then (v, .error (.failed .flushOverlay))
      else if fault = some .append then (v, .error (.failed .append))
      else
        let ptr := restorePointer name target
        let appended : MetaVolume := { v with stream := v.stream ++ [.mark ptr] }
        appended.restoreIndex fault ptr (max v.liveMaxIno v.nextInode)

/-! New volumes. -/

/-- A volume without snapshots, loaded for the first time. -/
def create (streamID : Name) : MetaVolume :=
  { streamID
    view := some (Index.applyChanges {} [(0, { key := .inode rootIno, row := some (.inode loadedRoot) })])
    liveMaxIno := rootIno }

/-- The index of a snapshot of another volume, at position 0. -/
def cloned (streamID : Name) (source : Index) : MetaVolume :=
  let idx := { source with position := 0 }
  let ptr : SnapshotPointer := { position := 0, location := 0, name := snapshotBase 0 }
  { streamID
    objects := (∅ : Objects).insert 0 idx
    stream := [.mark ptr]
    view := some idx
    liveMaxIno := idx.maxIno
    snapshotPointers := [ptr] }

def initFromSnapshot (streamID : Name) (source : Index) : MetaVolume := (cloned streamID source).initNextInode 0

end MetaVolume

end InClusterStorage.Controller
