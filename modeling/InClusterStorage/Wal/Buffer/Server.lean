import InClusterStorage.Wal.Buffer.SegmentGc
import InClusterStorage.Wal.Buffer.StreamRecovery

/- The buffer server (`server.go`) in one incarnation: group commits, the flush
   pipeline, the watermarks of the streams, and the per-stream files beside them.

   A commit gives its items positions, appends them to the local log and to the
   per-stream queues, puts them on `unflushedRecords` and then raises the
   witness watermarks; it holds the server's mutex all the while, but flushers
   take the queue without that mutex, so the three stages are three steps.
   `flushInternal` may run in any number of goroutines. Whoever finds `isFlushing`
   unset takes the whole queue, uploads it as one aggregated segment without a
   lock, then updates the watermarks under the mutex, tracks the segment,
   collects covered segments, trims the local log, and loops; when the upload
   fails it puts its batch back in front of the queue.

   `log` is the local segment store by its records: which whole files
   `DeleteSegmentsThrough` removes depends on their sizes, so a trim drops any
   prefix of flushed records, and a batch whose append fails may leave any prefix
   of itself. `unflushedBytes` and `FlushBytes` only decide when a flush is
   started, `inFlight`, `ackNeeded`, `attachments` and `waiters` when a client is
   read from and answered; here both may happen at any time. `committed` and
   `uploaded` are what was queued and what was stored so far; the server reads
   neither. -/
namespace InClusterStorage.Wal.Buffer

structure IncomingItem where
  streamID : UUID
  streamSeq : Nat
  payload : List UInt8
  deriving DecidableEq, Repr

structure StreamState where
  witnessSeq : Nat
  s3Seq : Nat
  commitErr : Bool := false
  deriving DecidableEq, Repr

/-- How far `commitItems` has come with a batch. -/
inductive CommitPc where
  | idle
  | appended (records : List LogRecord)
  | queued (records : List LogRecord)
  deriving DecidableEq, Repr

/-- Where a call of `flushInternal` stands, with the batch it has taken. -/
inductive FlushPc where
  /-- at the head of the loop, perhaps waiting for `isFlushing` -/
  | entry
  /-- before `PutObject` -/
  | putting (records : List LogRecord)
  /-- stored, the watermarks are next -/
  | stored (records : List LogRecord)
  /-- `TrackSegmentCoverage` is next -/
  | marked (records : List LogRecord)
  /-- `checkAggregatedSegmentGC` is next -/
  | tracked
  /-- `DeleteSegmentsThrough` is next -/
  | collected
  /-- `doFlush` has returned nil -/
  | flushed
  /-- `doFlush` has returned an error -/
  | failed (records : List LogRecord)
  /-- the call has returned -/
  | done
  deriving DecidableEq, Repr

structure Server where
  store : StreamStore
  lastPosition : Nat := 0
  lastFlushedPosition : Nat := 0
  flushedSegments : List SegmentPath := []
  streams : UUID → Option StreamState := fun _ => none
  unflushedRecords : List LogRecord := []
  isFlushing : Bool := false
  committing : CommitPc := .idle
  flushers : List FlushPc := []
  log : List LogRecord := []
  /-- `coverage.json`, zero where there is none -/
  coverage : Nat := 0
  /-- the directories under `streams/` -/
  streamDirs : List UUID := []
  committed : List LogRecord := []
  uploaded : List (List LogRecord) := []

/-! Group commit. -/

/-- The records of a batch, numbered on from `lastPosition`. -/
def assignPositions (lastPosition : Nat) : List IncomingItem → List LogRecord
  | [] => []
  | item :: items =>
    { position := lastPosition + 1, streamID := item.streamID, streamSeq := item.streamSeq,
      payload := item.payload } :: assignPositions (lastPosition + 1) items

/-- The streams after a batch could not be appended. -/
def commitFailed (items : List IncomingItem) (streams : UUID → Option StreamState) : UUID → Option StreamState :=
  fun id => (streams id).map fun st =>
    if items.any (·.streamID = id) then { st with commitErr := true } else st

/-- The first part of `commitItems`: positions, `AppendBatch`, and the per-stream
queues. `failed` is `some n` where the append fails and leaves `n` records. -/
def Server.appendBatch (items : List IncomingItem) (failed : Option Nat) (s : Server) : Server :=
  let records := assignPositions s.lastPosition items
  match failed with
  | none =>
    { s with
      lastPosition := s.lastPosition + items.length
      log := s.log ++ records
      store := s.store.appendRecords records
      committing := .appended records }
  | some n =>
    { s with
      lastPosition := s.lastPosition + items.length
      log := s.log ++ records.take n
      streams := commitFailed items s.streams }

/-- The streams after a committed batch: new ones are made, and the witness
watermarks rise to the highest sequence number of the batch. -/
def publish (records : List LogRecord) (streams : UUID → Option StreamState) : UUID → Option StreamState :=
  fun id =>
    match records.find? (·.streamID = id) with
    | none => streams id
    | some first =>
      let st := (streams id).getD { witnessSeq := first.streamSeq, s3Seq := 0 }
      let maxSeq := ((streamMax records).lookup id).getD 0
      some { st with witnessSeq := if maxSeq > st.witnessSeq then maxSeq else st.witnessSeq }

/-! Flush. -/

/-- The key of the segment that holds the records. -/
def segPath (records : List LogRecord) : SegmentPath :=
  { firstPos := (records.head?.map LogRecord.position).getD 0
    lastPos := (records.getLast?.map LogRecord.position).getD 0 }

/-- The streams after a stored batch: the known ones raise their `s3Seq`. -/
def raiseS3 (records : List LogRecord) (streams : UUID → Option StreamState) : UUID → Option StreamState :=
  fun id =>
    match streams id, (streamMax records).lookup id with
    | some st, some maxSeq =>
      some { st with s3Seq := if maxSeq > st.s3Seq then maxSeq else st.s3Seq }
    | st, _ => st

/-- The part of `doFlush` under the mutex. -/
def Server.markFlushed (records : List LogRecord) (s : Server) : Server :=
  { s with
    flushedSegments := s.flushedSegments ++ [segPath records]
    lastFlushedPosition :=
      if (segPath records).lastPos > s.lastFlushedPosition then (segPath records).lastPos
      else s.lastFlushedPosition
    streams := raiseS3 records s.streams }

def Server.putSegment (records : List LogRecord) (s : Server) : Server :=
  { s with
    store := s.store.putSegment (segPath records) records
    uploaded := s.uploaded ++ [records] }

def Server.trackSegmentCoverage (records : List LogRecord) (s : Server) : Server :=
  { s with store := s.store.trackSegmentCoverage (segPath records) records }

def Server.checkAggregatedSegmentGC (delOk : SegmentPath → Bool) (s : Server) : Server :=
  let result := s.store.checkSegmentGC delOk
  { s with
    store := result.1
    flushedSegments := s.flushedSegments.filter (· ∉ result.2) }

/-- `DeleteSegmentsThrough` removes the first `n` records of the local log, or
is not possible where one of them is not flushed. -/
def Server.deleteSegmentsThrough (n : Nat) (s : Server) : Option Server :=
  if ∀ r ∈ s.log.take n, r.position ≤ s.lastFlushedPosition
  then some { s with log := s.log.drop n } else none

def Server.setFlusher (s : Server) (t : Nat) (pc : FlushPc) : Server :=
  { s with flushers := s.flushers.set t pc }

/-- One step of the flusher `t`. `ok` is the outcome of `PutObject`, `delOk` says which
deletions succeed, and `n` is the number of records trimmed. -/
def Server.stepFlusher (t : Nat) (ok : Bool) (delOk : SegmentPath → Bool) (n : Nat) (s : Server) : Option Server :=
  match s.flushers[t]? with
  | none | some .done => none
  | some .entry =>
    if s.isFlushing then none
    else if s.unflushedRecords = [] then some (s.setFlusher t .done)
    else some ({ s with unflushedRecords := [], isFlushing := true }.setFlusher t (.putting s.unflushedRecords))
  | some (.putting records) =>
    if ok then some ((s.putSegment records).setFlusher t (.stored records))
    else some (s.setFlusher t (.failed records))
  | some (.stored records) =>
    -- the mutex is free only between commits
    if s.committing = .idle then some ((s.markFlushed records).setFlusher t (.marked records)) else none
  | some (.marked records) => some ((s.trackSegmentCoverage records).setFlusher t .tracked)
  | some .tracked =>
    if s.committing = .idle then some ((s.checkAggregatedSegmentGC delOk).setFlusher t .collected)
    else none
  | some .collected => (s.deleteSegmentsThrough n).map (·.setFlusher t .flushed)
  | some .flushed =>
    some ({ s with isFlushing := false }.setFlusher t (if s.unflushedRecords = [] then .done else .entry))
  | some (.failed records) =>
    some ({ s with
      isFlushing := false, unflushedRecords := records ++ s.unflushedRecords }.setFlusher t .done)

/-! The per-stream files, and the streams that clients attach to. -/

/-- Run `f` on a stream's files; a directory exists once it holds a file. -/
def Server.onStream (id : UUID) (f : Stream → Stream) (s : Server) : Server :=
  let store := s.store.update id f
  { s with
    store := store
    streamDirs := if (store.streams id).dir.keys.isEmpty then s.streamDirs else s.streamDirs.insert id }

/-- The position below which the stream has everything in sealed objects; an
idle stream has none. -/
def StreamWriter.coveredPos (w : StreamWriter) : Option Nat :=
  if w.firstPos = 0 ∧ w.uploadedPos = 0 then none
  else if w.uploadedPos = 0 ∧ w.firstPos > 0 then some (w.firstPos - 1)
  else some w.uploadedPos

/-- Write the lowest position that a stream covers to `coverage.json`. -/
def Server.saveCoverage (s : Server) : Server :=
  match (s.store.writers.filterMap fun id => (s.store.streams id).w.coveredPos).min? with
  | none => s
  | some minPos => { s with coverage := minPos }

/-- Discover the sealed files if nothing is known about them. -/
def ensureDiscovered (listOk : Bool) (s : Stream) : Stream :=
  if !s.w.discovered && s.w.sealed.isEmpty && s.w.uploadedTo == 0
  then discoverRemoteSealedLocked listOk s else s

/-- The state of a stream when a client says hello: an existing one as it is, or
a new one at the end of the sealed objects. -/
def Server.getOrCreateStream (listOk : Bool) (id : UUID) (s : Server) : Server × StreamState :=
  match s.streams id with
  | some st => (s, st)
  | none =>
    let s := s.onStream id (ensureDiscovered listOk)
    let uploadedTo := (s.store.streams id).w.uploadedTo
    let st : StreamState := { witnessSeq := uploadedTo, s3Seq := uploadedTo }
    ({ s with streams := Function.update s.streams id (some st) }, st)

inductive ServerEvent where
  | commit (items : List IncomingItem) (failed : Option Nat)
  | queue
  | publish
  | flush
  | flusher (t : Nat) (ok : Bool) (delOk : SegmentPath → Bool) (n : Nat)
  | hello (id : UUID) (listOk : Bool)
  | flushStream (id : UUID)
  | sealStream (id : UUID) (putOk : Bool)
  | upload (id : UUID) (i : Nat) (putOk : Bool)
  | discover (id : UUID) (listOk : Bool)
  | gc (delOk : SegmentPath → Bool)
  | saveCoverage

/-- One step of the buffer. Sequence numbers start at one: the receive loop drops
what is not above the witness watermark. -/
def Server.step (s : Server) : ServerEvent → Option Server
  | .commit items failed =>
    if s.committing = .idle ∧ items ≠ [] ∧ ∀ item ∈ items, 0 < item.streamSeq
    then some (s.appendBatch items failed) else none
  | .queue =>
    match s.committing with
    | .appended records =>
      some { s with
        unflushedRecords := s.unflushedRecords ++ records
        committed := s.committed ++ records
        committing := .queued records }
    | _ => none
  | .publish =>
    match s.committing with
    | .queued records =>
      some { s with streams := Buffer.publish records s.streams, committing := .idle }
    | _ => none
  | .flush => some { s with flushers := s.flushers ++ [.entry] }
  | .flusher t ok delOk n => s.stepFlusher t ok delOk n
  | .hello id listOk => if s.committing = .idle then some (s.getOrCreateStream listOk id).1 else none
  | .flushStream id => some (s.onStream id flushPendingLocked)
  | .sealStream id putOk => some (s.onStream id (sealLocked putOk))
  | .upload id i putOk => some (s.onStream id (uploadAt putOk i))
  | .discover id listOk => some (s.onStream id (discoverRemoteSealedLocked listOk))
  | .gc delOk => some { s with store := (s.store.checkSegmentGC delOk).1 }
  | .saveCoverage => some s.saveCoverage

end InClusterStorage.Wal.Buffer
