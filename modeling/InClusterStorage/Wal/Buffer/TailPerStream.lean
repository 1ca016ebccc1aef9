import InClusterStorage.Lib.Runs
import InClusterStorage.Wal.Segment
import InClusterStorage.Wal.Buffer.StreamOrder

/- Tailing one stream (`tailPerStream` in `server.go`). The tailer goes round a loop:
   flush the queue, take the list of sealed files, read each of them, read where
   the open file starts, and read the open file from where it stopped. Each of
   these takes the writer's lock on its own, and commits, flushes and seals fall
   in between. A record is sent if its sequence number is above the last one
   sent, so what the tailer passes over once it never sends.

   Files are read as bytes: the offset into the open file is a number of bytes, and
   what a read returns is what decodes from there.

   `tail_never_skips` says which interleavings send everything in order: those
   whose commits lie above all that is sealed and do not go back, and in which a
   read of the open file finds nothing to read or finds all records sealed since
   the list was taken already sent. -/
namespace InClusterStorage.Wal.Buffer

open Frame

/-! Reading files. -/

/-- The bytes of a stream file with the given records. -/
def encodeFile (records : List LogRecord) : List UInt8 :=
  defaultSegmentHeader ++ records.flatMap logFormat.encode

/-- The records that decode from the offset on, and the offset behind them. -/
def readRecordsFromOffset (acceptUnversioned : Bool) (file : Option (List UInt8)) (startOffset : Nat) :
    Except SegmentError (List LogRecord × Nat) :=
  match file with
  | none => .ok ([], startOffset)
  | some bytes =>
    let readAt := fun offset =>
      let records := (logFormat.scanAll (bytes.drop offset)).1
      (records, offset + (records.map fun r => logFormat.headerSize + r.payload.length).sum)
    if startOffset = 0 then
      match readSegmentHeader acceptUnversioned bytes with
      | .error .eof => .ok ([], 0)
      | .error e => .error e
      | .ok offset => .ok (readAt offset)
    else .ok (readAt startOffset)

/-- All records of an object; `none` where it cannot be fetched or decoded. -/
def readSegmentFromBackend (acceptUnversioned : Bool) (object : Option (List UInt8)) : Option (List LogRecord) :=
  match object with
  | none => none
  | some bytes =>
    match readSegmentHeader acceptUnversioned bytes with
    | .error .eof => some []
    | .error _ => none
    | .ok offset =>
      let found := logFormat.scanAll (bytes.drop offset)
      if found.2 = [] then some found.1 else none

/-! The tailer. -/

structure TailRequest where
  streamID : UUID
  fromStreamSeq : Nat
  fromPosition : Nat := 0
  /-- the server's setting -/
  acceptUnversioned : Bool := false

structure TailResponse where
  record : LogRecord
  resumedFrom : Nat
  deriving DecidableEq

inductive TailPc where
  | flush
  | snapshot
  | sealedFile (i : Nat)
  | openFrom
  | openFile
  | wait
  | failed
  deriving DecidableEq

structure Tailer where
  fromSeq : Nat
  snapshot : List StreamMeta := []
  curOpenFrom : Nat := 0
  openOffset : Nat := 0
  pc : TailPc := .flush
  sent : List TailResponse := []

section
variable (req : TailRequest)

def sendRecord (rec : LogRecord) (t : Tailer) : Tailer :=
  if rec.streamID ≠ req.streamID ∨ rec.streamSeq ≤ t.fromSeq then t
  else if req.fromPosition > 0 ∧ rec.position < req.fromPosition then t
  else
    let resumedFrom := if req.fromPosition = 0 then 1 else req.fromPosition
    { t with
      sent := t.sent ++ [{ record := rec, resumedFrom := if t.sent = [] then resumedFrom else 0 }]
      fromSeq := rec.streamSeq }

def sendRecords (records : List LogRecord) (t : Tailer) : Tailer :=
  records.foldl (fun t rec => sendRecord req rec t) t

/-- The records of a sealed file: the local file if it has any, else the object. -/
def readSealed (s : Stream) (sm : StreamMeta) : Option (List LogRecord) :=
  let fromDisk := match sm.path with
    | none => []
    | some path =>
      match readRecordsFromOffset req.acceptUnversioned ((s.dir.lookup path).map encodeFile) 0 with
      | .ok found => found.1
      | .error _ => []
  if fromDisk ≠ [] then some fromDisk
  else match sm.key with
    | none => some []
    | some key => readSegmentFromBackend req.acceptUnversioned ((s.objects.lookup key).map encodeFile)

/-- What a read of the open file returns. -/
def readOpen (s : Stream) (t : Tailer) : Except SegmentError (List LogRecord × Nat) :=
  readRecordsFromOffset req.acceptUnversioned ((s.dir.lookup (.opened t.curOpenFrom)).map encodeFile) t.openOffset

def tailStep (s : Stream) (t : Tailer) : Stream × Tailer :=
  match t.pc with
  | .flush => (flushPendingLocked s, { t with pc := .snapshot })
  | .snapshot =>
    let metas := getSealedMetas true s
    (metas.1, { t with snapshot := metas.2, pc := .sealedFile 0 })
  | .sealedFile i =>
    match t.snapshot[i]? with
    | none => (s, { t with pc := .openFrom })
    | some sm =>
      if sm.toSeq ≤ t.fromSeq then (s, { t with pc := .sealedFile (i + 1) })
      else match readSealed req s sm with
        | none => (s, { t with pc := .failed })
        | some records => (s, { sendRecords req records t with pc := .sealedFile (i + 1) })
  | .openFrom =>
    (s, { t with
      curOpenFrom := s.w.openFrom
      openOffset := if s.w.openFrom ≠ t.curOpenFrom then 0 else t.openOffset
      pc := .openFile })
  | .openFile =>
    if t.curOpenFrom > 0 then
      match readOpen req s t with
      | .error _ => (s, { t with pc := .failed })
      | .ok found =>
        (s, { sendRecords req found.1 { t with openOffset := found.2 } with pc := .wait })
    else (s, { t with pc := .wait })
  | .wait => (s, { t with pc := .flush })
  | .failed => (s, t)

end

/-! Interleavings. -/

/-- The stream, its tailer, and the records committed to the stream in their order. -/
structure TailState where
  s : Stream := {}
  t : Tailer
  committed : List LogRecord := []

inductive TailEvent where
  | commit (r : LogRecord)
  | flush
  | sealFile (putOk : Bool)
  | tail

section
variable (req : TailRequest)

/-- A record is committed with the id of the stream and a positive sequence number,
and fits its fields. A batch is committed one record at a time. -/
def TailState.step (x : TailState) : TailEvent → Option TailState
  | .commit r =>
    if r.streamID = req.streamID ∧ 0 < r.streamSeq ∧ r.Fits then
      some { x with s := (appendRecords [r] x.s).1, committed := x.committed ++ [r] }
    else none
  | .flush => some { x with s := flushPendingLocked x.s }
  | .sealFile putOk => some { x with s := sealLocked putOk x.s }
  | .tail =>
    let next := tailStep req x.s x.t
    some { x with s := next.1, t := next.2 }

/-- A new stream and a tailer about to start. -/
def TailState.start : TailState := { t := { fromSeq := req.fromStreamSeq } }

/-- The numbers sent are strictly increasing, and when a record was sent, every
record committed before it with a number above the start and below its own had
been sent already. -/
def TailState.NoSkip (x : TailState) : Prop :=
  (x.t.sent.map fun a => a.record.streamSeq).Pairwise (· < ·) ∧
  ∀ pre a post, x.t.sent = pre ++ a :: post →
    ∀ before after, x.committed = before ++ a.record :: after →
      ∀ c ∈ before, req.fromStreamSeq < c.streamSeq → c.streamSeq < a.record.streamSeq →
        c.streamSeq ∈ pre.map fun a => a.record.streamSeq

/-- The records of the files sealed since the tailer took its list. -/
def TailState.sealedSince (x : TailState) : List LogRecord :=
  x.s.dir.recordsOf (x.s.w.names.drop x.t.snapshot.length)

/-- The condition on a run. A committed record lies above all that is sealed, and
above all that is committed unless it repeats a committed number. A read of the
open file returns nothing, or all that was sealed since the list was taken is
not above the last record sent. -/
def TailState.Orderly (x : TailState) : TailEvent → Prop
  | .commit r => (∀ n ∈ x.s.w.names, n.2 < r.streamSeq) ∧
      ((∀ c ∈ x.committed, c.streamSeq < r.streamSeq) ∨ r.streamSeq ∈ seqs x.committed)
  | .tail => x.t.pc = .openFile →
      (∀ r ∈ x.sealedSince, r.streamSeq ≤ x.t.fromSeq) ∨ (readOpen req x.s x.t).toOption.map Prod.fst = some []
  | _ => True

instance (x : TailState) : ∀ e, Decidable (x.Orderly req e)
  | .commit _ => inferInstanceAs (Decidable (_ ∧ _))
  | .flush => inferInstanceAs (Decidable True)
  | .sealFile _ => inferInstanceAs (Decidable True)
  | .tail => inferInstanceAs (Decidable (_ → _))

end

end InClusterStorage.Wal.Buffer
