import InClusterStorage.Lib.Runs
import InClusterStorage.Node.Push

/- Write-back to a controller that may restart (`fuse/fs.go`, `FsyncWithEpoch` of
   `controller/volume.go`).

   A push sends the copy of an inode's dirty chunks, one `WriteFile` for each run; the
   controller stages them. `Fsync` commits what is staged. A restart discards what is
   staged and changes the epoch; every answer of the controller carries the epoch, and an
   `Fsync` with another epoch than the present one is refused (`ESTALE`). A push remembers
   the epoch of its last `WriteFile` only.

   Every sync call is a task that is interrupted around every call of the controller and
   between any two sections of the cache's mutex. `syncClosedInodes` is one task for each
   inode. Writes, replies to reads and invalidations happen at any moment, and so do syncs
   of the controller's own (`commit`). A chunk at the controller is the version that was
   sent last: its bytes, and the generation they had at the node. `incarnation` counts the
   restarts, and `history` has the bytes of every generation of a chunk; no task reads them.
   No call here changes a size, so the part of a push that sends a dirty size is left out. -/
namespace InClusterStorage.Node

open Bytes Runs
open Controller (chunkRange)

/-- The bytes of a chunk, in one generation. -/
structure Version where
  gen : Nat
  data : List UInt8
  deriving DecidableEq, Repr

/-- A chunk that was sent, and is to be marked clean in that generation. -/
structure SentChunk where
  inode : Nat
  chunk : Nat
  gen : Nat
  /-- which controller it was sent to -/
  incarnation : Nat
  deriving DecidableEq, Repr

/-- `pushDirtyChunksToStaging`, in its loop over the runs. -/
structure Push where
  inode : Nat
  d : DirtyChunks
  /-- chunks behind the end, to be marked clean first -/
  beyond : List Nat
  runs : List (List Nat)
  lastEpoch : Nat := 0
  uncleaned : List SentChunk := []
  drained : Bool := false

/-- What the push was made for. -/
inductive PushFor where
  | flush
  /-- `syncAndFsyncLocked`, which keeps the lock to its end -/
  | fsync (blocking retry : Bool)
  /-- one inode of `syncClosedInodes` -/
  | close (retry : Bool)
  /-- `syncVolumeBlocking` or `syncVolumeNonBlocking`, with the inodes that are left -/
  | volume (left : List Nat) (lastEpoch : Nat) (marks : List SentChunk)

inductive PushTask where
  /-- before `GetDirtyEntries` -/
  | entries
  /-- between two pushes of a volume sync, or before its `Fsync` -/
  | volume (left : List Nat) (lastEpoch : Nat) (marks : List SentChunk)
  /-- before the lock of the inode and `GetDirtyChunks` -/
  | enter (after : PushFor) (inode : Nat)
  /-- before the next `WriteFile` -/
  | push (after : PushFor) (p : Push)
  /-- out of space: before the `Fsync` -/
  | drain (after : PushFor) (p : Push)
  /-- out of space: what was sent before is marked clean -/
  | drained (after : PushFor) (p : Push) (marks : List SentChunk)
  /-- before `Fsync` -/
  | sync (after : PushFor) (inode epoch : Nat) (marks : List SentChunk)
  /-- in `completeSync`, perhaps with the lock of an inode -/
  | mark (lock : Option Nat) (marks : List SentChunk)

/-- How a call of the controller ends. A call that fails may have taken effect. -/
inductive CallOutcome where
  | ok
  | enospc
  | failed (applied : Bool)
  deriving DecidableEq, Repr

/-- What a section does not decide itself. -/
structure PushEnv where
  outcome : CallOutcome := .ok
  /-- the order in which the dirty entries are visited -/
  order : List Nat := []

structure SyncsState where
  cache : NodeCache
  epoch : Nat
  incarnation : Nat := 0
  staged : Nat → Nat → Option Version := fun _ _ => none
  committed : Nat → Nat → Option Version := fun _ _ => none
  history : Nat → Nat → Nat → Option (List UInt8) := fun _ _ _ => none
  tasks : AList fun _ : Nat => PushTask := ∅

/-- The inode whose lock (`lockInodeSync`) a task has. -/
def PushTask.lock : PushTask → Option Nat
  | .push _ p | .drain _ p | .drained _ p _ => some p.inode
  | .enter (.fsync _ true) inode => some inode
  | .sync (.fsync _ _) inode _ _ => some inode
  | .mark lock _ => lock
  | _ => none

namespace SyncsState

/-! The controller. -/

/-- `WriteFile` with the chunks of a run. -/
def stage (inode : Nat) (d : DirtyChunks) (run : List Nat) (s : SyncsState) : SyncsState :=
  { s with
    staged := fun n i =>
      if n = inode ∧ i ∈ run then some ⟨(d.gens.lookup i).getD 0, d.data i⟩ else s.staged n i }

/-- What is staged of some inodes is committed. -/
def commit (inodes : Nat → Bool) (s : SyncsState) : SyncsState :=
  { s with
    staged := fun n i => if inodes n then none else s.staged n i
    committed := fun n i => if inodes n then (s.staged n i).or (s.committed n i) else s.committed n i }

/-- `FsyncWithEpoch` refuses the epoch. -/
def Stale (reqEpoch : Nat) (s : SyncsState) : Prop := reqEpoch ≠ 0 ∧ reqEpoch ≠ s.epoch

instance (reqEpoch : Nat) (s : SyncsState) : Decidable (s.Stale reqEpoch) := inferInstanceAs (Decidable (_ ∧ _))

/-- `Fsync` with the trigger `CLOSE` waits for the inode only; the others wait for all. -/
def fsync (after : PushFor) (inode : Nat) (s : SyncsState) : SyncsState :=
  match after with
  | .close _ => s.commit (· = inode)
  | _ => s.commit fun _ => true

/-! Tasks. -/

/-- The marks for a run that was sent now. -/
def sentRun (inode : Nat) (d : DirtyChunks) (run : List Nat) (s : SyncsState) : List SentChunk :=
  run.map fun i => ⟨inode, i, (d.gens.lookup i).getD 0, s.incarnation⟩

def pushed (inode epoch : Nat) (uncleaned : List SentChunk) : PushFor → Option PushTask
  | .flush => none
  | .fsync blocking retry =>
    if uncleaned = [] ∧ blocking = false ∧ retry = false then none
    else some (.sync (.fsync blocking retry) inode epoch uncleaned)
  | .close retry =>
    if uncleaned = [] ∧ retry = false then none else some (.sync (.close retry) inode epoch uncleaned)
  | .volume left lastEpoch marks =>
    if uncleaned = [] then some (.volume left lastEpoch marks) else some (.volume left epoch (marks ++ uncleaned))

/-- Lock the inode and copy its dirty chunks. -/
def enter (id : Nat) (after : PushFor) (inode : Nat) (s : SyncsState) : Option (SyncsState × Option PushTask) :=
  if ∃ t ∈ s.tasks.entries, t.1 ≠ id ∧ t.2.lock = some inode then none
  else match s.cache.getDirtyChunks inode with
    | none => some (s, pushed inode 0 [] after)
    | some d => some (s, some (.push after { inode, d, beyond := d.beyond, runs := d.runs }))

def markClean (inode i gen : Nat) (s : SyncsState) : SyncsState :=
  { s with cache := s.cache.markChunkClean inode i gen }

def runPush (outcome : CallOutcome) (after : PushFor) (p : Push) (s : SyncsState) :
    Option (SyncsState × Option PushTask) :=
  match p.beyond, p.runs with
  | i :: beyond, _ => some (s.markClean p.inode i ((p.d.gens.lookup i).getD 0), some (.push after { p with beyond }))
  | [], run :: runs =>
    match outcome with
    | .ok =>
      some (s.stage p.inode p.d run, some (.push after
        { p with
          runs
          lastEpoch := s.epoch
          uncleaned := p.uncleaned ++ s.sentRun p.inode p.d run
          drained := false }))
    | .enospc => if p.drained then some (s, none) else some (s, some (.drain after { p with drained := true }))
    | .failed applied => some (if applied then s.stage p.inode p.d run else s, none)
  | [], [] => some (s, pushed p.inode p.lastEpoch p.uncleaned after)

/-- What a caller does with `ESTALE`. -/
def stale (inode : Nat) : PushFor → Option PushTask
  | .fsync blocking false => some (.enter (.fsync blocking true) inode)
  | .close false => some (.enter (.close true) inode)
  | .volume _ _ _ => some .entries
  | _ => none

/-- `Fsync`, and what follows each answer. -/
def runFsync (outcome : CallOutcome) (after : PushFor) (inode reqEpoch : Nat) (onStale onOk : Option PushTask)
    (s : SyncsState) : SyncsState × Option PushTask :=
  match outcome with
  | .failed true => (s.fsync after inode, none)
  | .failed false | .enospc => (s, none)
  | .ok => if s.Stale reqEpoch then (s, onStale) else (s.fsync after inode, onOk)

def runTask (id : Nat) (env : PushEnv) (s : SyncsState) : PushTask → Option (SyncsState × Option PushTask)
  | .entries =>
    if env.order.Perm s.cache.getDirtyEntries then
      some (s, if env.order = [] then none else some (.volume env.order 0 []))
    else none
  | .volume (inode :: left) lastEpoch marks => s.enter id (.volume left lastEpoch marks) inode
  | .volume [] lastEpoch marks =>
    if marks = [] then some (s, none)
    else
      let after : PushFor := .volume [] lastEpoch marks
      some (s.runFsync env.outcome after 1 lastEpoch (stale 1 after) (some (.mark none marks)))
  | .enter after inode => s.enter id after inode
  | .push after p => s.runPush env.outcome after p
  | .drain after p =>
    some (s.runFsync env.outcome .flush p.inode p.lastEpoch none
      (some (.drained after { p with uncleaned := [], lastEpoch := s.epoch } p.uncleaned)))
  | .drained after p [] => some (s, some (.push after p))
  | .drained after p (m :: marks) => some (s.markClean m.inode m.chunk m.gen, some (.drained after p marks))
  | .sync after inode epoch marks =>
    let lock := (PushTask.sync after inode epoch marks).lock
    some (s.runFsync env.outcome after inode epoch (stale inode after) (some (.mark lock marks)))
  | .mark lock (m :: marks) => some (s.markClean m.inode m.chunk m.gen, some (.mark lock marks))
  | .mark _ [] => some (s, none)

end SyncsState

inductive SyncCall where
  | flush (inode : Nat)
  | fsync (inode : Nat) (blocking : Bool)
  | close (inode : Nat)
  | volume

def SyncCall.task : SyncCall → PushTask
  | .flush inode => .enter .flush inode
  | .fsync inode blocking => .enter (.fsync blocking false) inode
  | .close inode => .enter (.close false) inode
  | .volume => .entries

inductive SyncEvent where
  /-- `WriteAt` -/
  | write (inode offset : Nat) (data : List UInt8) (now : Nat)
  /-- `PutChunk` with a reply for a read -/
  | reply (inode i totalSize : Nat) (data : List UInt8) (gen now : Nat)
  | invalidate (inode : Nat)
  | begin (id : Nat) (call : SyncCall)
  | run (id : Nat) (env : PushEnv)
  /-- the controller commits what is staged of some inodes -/
  | commit (inodes : List Nat)
  | restart (epoch : Nat)

namespace SyncsState

/-- The chunks that a write touches get their bytes in the new generation. -/
def writeAt (inode offset : Nat) (data : List UInt8) (now : Nat) (s : SyncsState) : SyncsState :=
  let cache := s.cache.writeAt inode offset data now
  { s with
    cache
    history := fun n i g =>
      if n = inode ∧ g = s.cache.curGen + 1 ∧ i ∈ chunkRange defaultChunkSize offset (offset + data.length) then
        cache.chunkAt inode i
      else s.history n i g }

def step (s : SyncsState) : SyncEvent → Option SyncsState
  | .write inode offset data now => if data = [] then none else some (s.writeAt inode offset data now)
  | .reply inode i totalSize data gen now =>
    -- the reply is a chunk of a file of the size
    if data.length ≤ defaultChunkSize ∧ i * defaultChunkSize + data.length ≤ totalSize then
      some { s with cache := s.cache.putChunk inode i defaultChunkSize totalSize data gen now }
    else none
  | .invalidate inode => some { s with cache := s.cache.invalidateIfNotDirty inode }
  | .begin id call =>
    if (s.tasks.lookup id).isSome then none else some { s with tasks := s.tasks.insert id call.task }
  | .run id env =>
    match s.tasks.lookup id with
    | none => none
    | some task =>
      match s.runTask id env task with
      | none => none
      | some (s, none) => some { s with tasks := s.tasks.erase id }
      | some (s, some task) => some { s with tasks := s.tasks.insert id task }
  | .commit inodes => some (s.commit (· ∈ inodes))
  | .restart epoch =>
    if epoch = s.epoch ∨ epoch = 0 then none
    else some { s with epoch, incarnation := s.incarnation + 1, staged := fun _ _ => none }

def start (maxBytes : Int) (epoch : Nat) : SyncsState := { cache := .new maxBytes, epoch }

/-- The controller has the bytes of the chunk, in that generation or a newer one. -/
def HasCommitted (s : SyncsState) (m : SentChunk) : Prop :=
  ∃ v, s.committed m.inode m.chunk = some v ∧ m.gen ≤ v.gen ∧ s.history m.inode m.chunk v.gen = some v.data

/-- The chunks that a task is marking clean, in `completeSync` or because space had run out. -/
def marking : PushTask → List SentChunk
  | .drained _ _ marks | .mark _ marks => marks
  | _ => []

/-- What is being marked clean is committed. -/
def MarksCommitted (s : SyncsState) : Prop :=
  ∀ id task, s.tasks.lookup id = some task → ∀ m ∈ marking task, s.HasCommitted m

end SyncsState

end InClusterStorage.Node
