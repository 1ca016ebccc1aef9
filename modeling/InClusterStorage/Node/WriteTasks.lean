import InClusterStorage.Node.OwnWrites

/- Concurrent calls on one node (`fuse/fs.go`): any number of `Write` calls, the fetches of
   reads, and volume syncs, each as a task that is interrupted between any two sections of
   the cache's mutex and around every call of the controller.

   The controller has one array of bytes for each file and does every call at once; no call
   fails. The writes lie inside the initial sizes of their files. No call here changes a
   size, so the part of a push that sends a dirty size is left out (`Inv.cache` says that
   there is none). `covered` collects what the writes have written; no task reads it. -/
namespace InClusterStorage.Node

open Bytes Runs
open Controller (chunkRange expectedChunkLength mem_chunkRange div_mul_add_mod div_eq expectedChunkLength_eq)

/-- A range of bytes of a file. -/
structure Extent where
  inode : Nat
  offset : Nat
  stop : Nat
  deriving DecidableEq, Repr

def Extent.Contains (x : Extent) (inode p : Nat) : Prop := x.inode = inode ∧ x.offset ≤ p ∧ p < x.stop

def Covered (covered : List Extent) (inode p : Nat) : Prop := ∃ x ∈ covered, x.Contains inode p

/-- A chunk to mark clean, with the generation that was sent. -/
structure Mark where
  inode : Nat
  chunk : Nat
  gen : Nat
  deriving DecidableEq, Repr

/-- Where `syncVolumeBlocking` or `syncVolumeNonBlocking` is. -/
inductive SyncPhase where
  /-- before `GetDirtyEntries` -/
  | entries
  /-- before the push of the next inode -/
  | inodes (left : List Nat) (marks : List Mark)
  /-- in the push of an inode, with the copy of its dirty chunks -/
  | sending (inode : Nat) (d : DirtyChunks) (beyond : List Nat) (runs : List (List Nat)) (left : List Nat)
      (marks : List Mark)
  /-- in `completeSync` -/
  | marking (marks : List Mark)
  /-- before `InvalidateAllClean` -/
  | dropping

inductive FetchPhase where
  /-- before `GetChunk` -/
  | look
  /-- before `GetGeneration` -/
  | generation
  /-- before `ReadFile` -/
  | ask (readGen : Nat)
  /-- before `PutChunk` -/
  | reply (readGen totalSize : Nat) (data : List UInt8)

inductive WritePhase where
  /-- with `WRITE_CACHE`: before `GetSize` -/
  | size
  /-- with `WRITE_CACHE`: before `GetAttr` -/
  | attr
  /-- before `GetSize` for the next chunk, or before the check of the dirty bytes -/
  | chunks (left : List Nat)
  | fetch (i : Nat) (phase : FetchPhase) (left : List Nat)
  | sync (phase : SyncPhase)
  /-- before `WriteAt` -/
  | ready

inductive Task where
  | write (inode offset : Nat) (data : List UInt8) (phase : WritePhase)
  /-- a chunk that a `Read` does not find in memory -/
  | read (inode i : Nat) (phase : FetchPhase)
  | sync (phase : SyncPhase)

structure TasksState where
  cache : NodeCache
  files : Nat → List UInt8
  /-- the inodes that are being pushed (`lockInodeSync`) -/
  locks : List Nat := []
  tasks : AList fun _ : Nat => Task := ∅
  covered : List Extent := []

/-- What a section does not decide itself. -/
structure TaskEnv where
  now : Nat
  /-- the order in which the dirty entries are visited -/
  order : List Nat := []

namespace SyncPhase

/-- The marks for the chunks of a run. -/
def marksOf (inode : Nat) (d : DirtyChunks) (run : List Nat) : List Mark :=
  run.map fun i => ⟨inode, i, (d.gens.lookup i).getD 0⟩

/-- One section of a volume sync; it is over where there is no next phase. -/
def run (diskCache : Bool) (env : TaskEnv) (s : TasksState) : SyncPhase → Option (TasksState × Option SyncPhase)
  | entries =>
    if env.order.Perm s.cache.getDirtyEntries then
      some (s, if env.order = [] then none else some (inodes env.order []))
    else none
  | inodes (inode :: left) marks =>
    if inode ∈ s.locks then none
    else match s.cache.getDirtyChunks inode with
      | none => some (s, some (inodes left marks))
      | some d => some ({ s with locks := inode :: s.locks }, some (sending inode d d.beyond d.runs left marks))
  | sending inode d (i :: beyond) runs left marks =>
    some ({ s with cache := s.cache.markChunkClean inode i ((d.gens.lookup i).getD 0) },
      some (sending inode d beyond runs left marks))
  | sending inode d [] (run :: runs) left marks =>
    some ({ s with files := Function.update s.files inode (d.sendRun (s.files inode) run) },
      some (sending inode d [] runs left (marks ++ marksOf inode d run)))
  | sending inode _ [] [] left marks => some ({ s with locks := s.locks.erase inode }, some (inodes left marks))
  -- `Fsync` at the controller changes no bytes
  | inodes [] marks => some (s, if marks = [] then none else some (marking marks))
  | marking (m :: marks) =>
    some ({ s with cache := s.cache.markChunkClean m.inode m.chunk m.gen }, some (marking marks))
  | marking [] => some (s, if diskCache then some dropping else none)
  | dropping => some ({ s with cache := s.cache.invalidateAllClean }, none)

end SyncPhase

/-- One section of a fetch. `keeps` says whether the reply is put into the cache. -/
def FetchPhase.run (inode i : Nat) (keeps : List UInt8 → Nat → Bool) (env : TaskEnv) (s : TasksState) :
    FetchPhase → TasksState × Option FetchPhase
  | look =>
    match s.cache.getChunk inode i env.now with
    | (cache, some _) => ({ s with cache }, none)
    | (cache, none) => ({ s with cache }, some generation)
  | generation => (s, some (ask (s.cache.getGeneration inode)))
  | ask readGen =>
    (s, some (reply readGen (s.files inode).length
      (FileConfig.readFile (s.files inode) (i * defaultChunkSize) defaultChunkSize)))
  | reply readGen totalSize data =>
    (if keeps data totalSize then
      { s with cache := s.cache.putChunk inode i defaultChunkSize totalSize data readGen env.now }
    else s, none)

namespace WritePhase

/-- A write of cached pages does not lengthen the file. -/
def clamp (inode offset : Nat) (data : List UInt8) (clientSize : Nat) : Option Task :=
  if clientSize ≤ offset then none
  else
    let data := data.take (clientSize - offset)
    some (.write inode offset data (chunks (chunkRange defaultChunkSize offset (offset + data.length))))

/-- The chunk is written in part. -/
def CoversPart (offset stop i : Nat) : Prop :=
  let chunkStart := i * defaultChunkSize
  let chunkEnd := chunkStart + defaultChunkSize
  chunkStart < max offset chunkStart ∨ min stop chunkEnd < chunkEnd

instance (offset stop i : Nat) : Decidable (CoversPart offset stop i) := inferInstanceAs (Decidable (_ ∨ _))

def run (diskCache : Bool) (inode offset : Nat) (data : List UInt8) (env : TaskEnv) (s : TasksState) :
    WritePhase → Option (TasksState × Option Task)
  | size =>
    match s.cache.getSize inode with
    | some clientSize => some (s, clamp inode offset data clientSize)
    | none => some (s, some (.write inode offset data attr))
  | attr => some (s, clamp inode offset data (s.files inode).length)
  | chunks (i :: left) =>
    if CoversPart offset (offset + data.length) i ∧
        ¬ ∃ clientSize ∈ s.cache.getSize inode, clientSize ≤ i * defaultChunkSize then
      some (s, some (.write inode offset data (fetch i .look left)))
    else some (s, some (.write inode offset data (chunks left)))
  | fetch i phase left =>
    match phase.run inode i (fun data _ => data ≠ []) env s with
    | (s, some phase) => some (s, some (.write inode offset data (fetch i phase left)))
    | (s, none) => some (s, some (.write inode offset data (chunks left)))
  | chunks [] =>
    some (s, some (.write inode offset data (if s.cache.wouldDirtyOverflow data.length then sync .entries else ready)))
  | sync phase =>
    match phase.run diskCache env s with
    | none => none
    | some (s, some phase) => some (s, some (.write inode offset data (sync phase)))
    | some (s, none) => some (s, some (.write inode offset data ready))
  | ready =>
    some ({ s with
      cache := s.cache.writeAt inode offset data env.now
      covered := ⟨inode, offset, offset + data.length⟩ :: s.covered }, none)

end WritePhase

def Task.run (diskCache : Bool) (env : TaskEnv) (s : TasksState) : Task → Option (TasksState × Option Task)
  | .write inode offset data phase => phase.run diskCache inode offset data env s
  | .read inode i phase =>
    -- a whole chunk, or the end of the file; with a disk cache the reply is stored there
    let keeps := fun (data : List UInt8) totalSize =>
      (data.length = defaultChunkSize ∨ totalSize ≤ i * defaultChunkSize + data.length) ∧ data ≠ [] ∧ diskCache = false
    match phase.run inode i (fun data totalSize => keeps data totalSize) env s with
    | (s, some phase) => some (s, some (.read inode i phase))
    | (s, none) => some (s, none)
  | .sync phase =>
    match phase.run diskCache env s with
    | none => none
    | some (s, phase) => some (s, phase.map .sync)

inductive TaskEvent where
  | write (id : Nat) (writeCache : Bool) (inode offset : Nat) (data : List UInt8)
  | read (id inode i : Nat)
  | sync (id : Nat)
  /-- a read that is answered from memory -/
  | touch (inode now : Nat)
  /-- the next section of a task -/
  | run (id : Nat) (env : TaskEnv)

namespace TasksState

def start (maxBytes : Int) (initial : Nat → List UInt8) : TasksState := { cache := .new maxBytes, files := initial }

def begin (id : Nat) (task : Task) (s : TasksState) : Option TasksState :=
  if (s.tasks.lookup id).isSome then none else some { s with tasks := s.tasks.insert id task }

def step (diskCache : Bool) (initial : Nat → List UInt8) (s : TasksState) : TaskEvent → Option TasksState
  | .write id writeCache inode offset data =>
    if offset + data.length ≤ (initial inode).length then
      s.begin id (.write inode offset data
        (if writeCache then .size else .chunks (chunkRange defaultChunkSize offset (offset + data.length))))
    else none
  | .read id inode i => s.begin id (.read inode i .look)
  | .sync id => s.begin id (.sync .entries)
  | .touch inode now => some { s with cache := s.cache.touch inode now }
  | .run id env =>
    match s.tasks.lookup id with
    | none => none
    | some task =>
      match task.run diskCache env s with
      | none => none
      | some (s, none) => some { s with tasks := s.tasks.erase id }
      | some (s, some task) => some { s with tasks := s.tasks.insert id task }

/-- The controller's bytes of a file after a sync that is made now. -/
def synced (s : TasksState) (inode : Nat) : List UInt8 :=
  match s.cache.getDirtyChunks inode with
  | none => s.files inode
  | some d => d.runs.foldl d.sendRun (s.files inode)

/-- A sync that is made now leaves the initial value of every byte that no write covered. -/
def UncoveredKept (initial : Nat → List UInt8) (s : TasksState) : Prop :=
  ∀ inode p, ¬ Covered s.covered inode p → byteAt (s.synced inode) p = byteAt (initial inode) p

end TasksState

end InClusterStorage.Node
