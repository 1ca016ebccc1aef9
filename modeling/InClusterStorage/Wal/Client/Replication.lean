import InClusterStorage.Lib.Runs
import InClusterStorage.Wal.Client.Stream

/- Replication of a client's stream to the buffer: any number of `Append` calls in
   their three sections, the replication session (`runStreamSession`), and the
   buffer at the other end.

   A session sends the retained records above the witness head that `HelloAck`
   names, in the order of the list, and then waits for `newRecordSignal`; woken, it
   sends the first retained record at or above `nextSeqToSend`, moves
   `nextSeqToSend` behind it, and repeats. The buffer takes the records of a
   connection in order, skips what is not above its head, and queues the rest; what
   is queued is committed without another look, and the head is acknowledged. A
   connection may break at any time; what was sent on it may still arrive while the
   next session runs, and a record that is sent again before its first copy is
   committed is committed twice.

   The head may rise after a record was compared with it and before the record is
   queued, so that a record may be queued whatever the head is by then. All local
   writes succeed, those of the buffer as well. `committed` is what the buffer holds of the stream,
   `inserted` what was ever put on `retainedRecords`: the recovered records, and
   those of the `Append` calls that have returned. -/
namespace InClusterStorage.Wal.Client

/-- An `Append` that has its number and has not returned. -/
structure AppendCall where
  record : ClientRecord
  /-- the local write is done -/
  stored : Bool
  deriving DecidableEq, Repr

inductive Session where
  | down
  /-- `HelloAck` has been sent -/
  | greeted (ack : Ack)
  /-- the client asks the buffer for its record at the head -/
  | comparing (ack : Ack) (localRec : ClientRecord)
  /-- `handleHelloAck` has returned nil -/
  | accepted (ack : Ack)
  | replaying (records : List ClientRecord) (nextSeqToSend : Nat)
  /-- waiting for `newRecordSignal` -/
  | waiting (nextSeqToSend : Nat)
  | sending (nextSeqToSend : Nat)
  deriving DecidableEq, Repr

structure Replication where
  c : StreamImpl
  /-- `initialHelloAckDone` is closed -/
  helloDone : Bool := false
  appending : List AppendCall := []
  newRecordSignal : Bool := false
  session : Session := .down
  /-- the records on their way, connection by connection, the latest first -/
  wires : List (List ClientRecord) := []
  /-- `incomingChan` -/
  incoming : List ClientRecord := []
  acks : List Ack := []
  committed : List ClientRecord := []
  inserted : List ClientRecord := []
  deriving DecidableEq, Repr

/-- The highest committed sequence number. -/
def head (committed : List ClientRecord) : Nat := committed.foldr (fun r m => max r.streamSeq m) 0

namespace Replication

/-! The session. -/

def accept (ack : Ack) (c : StreamImpl) (x : Replication) : Replication :=
  { x with c, session := .accepted ack, helloDone := true }

/-- The records to replay and the number to go on with. -/
def startReplay (ack : Ack) (x : Replication) : Replication :=
  let records := x.c.retainedRecords.filter fun r => r.streamSeq > ack.witnessAckedStreamSeq
  let nextSeqToSend := match records.getLast? with
    | some last => last.streamSeq + 1
    | none => ack.witnessAckedStreamSeq + 1
  { x with session := .replaying records nextSeqToSend }

/-- Send a record on the current connection. -/
def send (rec : ClientRecord) (session : Session) (x : Replication) : Option Replication :=
  match x.wires with
  | [] => none
  | wire :: rest => some { x with wires := (wire ++ [rec]) :: rest, session }

/-- The next step of the session. `found` says whether the buffer returns its record
at the head, `truncateOk` whether the segment files can be truncated. -/
def stepSession (found truncateOk : Bool) (x : Replication) : Option Replication :=
  match x.session with
  | .down => none
  | .greeted ack =>
    match x.c.localRecAtHead ack.witnessAckedStreamSeq with
    | none => some (x.accept ack ((x.c.adoptHead ack.witnessAckedStreamSeq).acceptHelloAck ack).1)
    | some localRec => some { x with session := .comparing ack localRec }
  | .comparing ack localRec =>
    let buffered := x.committed.find? fun r => r.streamSeq = ack.witnessAckedStreamSeq
    let result := x.c.reconcile ack localRec (if found then buffered.map ClientRecord.payload else none) truncateOk
    match result.2.2 with
    | none => some (x.accept ack result.1)
    | some _ => some { x with c := result.1, session := .down }
  | .accepted ack => some (x.startReplay ack)
  | .replaying [] nextSeqToSend => some { x with session := .waiting nextSeqToSend }
  | .replaying (rec :: rest) nextSeqToSend => x.send rec (.replaying rest nextSeqToSend)
  | .waiting nextSeqToSend =>
    if x.newRecordSignal then some { x with newRecordSignal := false, session := .sending nextSeqToSend }
    else none
  | .sending nextSeqToSend =>
    match x.c.retainedRecords.find? fun r => r.streamSeq ≥ nextSeqToSend with
    | none => some { x with session := .waiting nextSeqToSend }
    | some rec => x.send rec (.sending (rec.streamSeq + 1))

/-! The machine. -/

inductive Event where
  | reserve (payload : List UInt8)
  | store (i : Nat)
  | insert (i : Nat)
  | connect (s3 : Nat)
  | session (found truncateOk : Bool)
  | disconnect
  /-- the buffer takes the next record of the `i`-th connection, and queues or skips it -/
  | deliver (i : Nat) (queued : Bool)
  /-- `commitItems` for the next record -/
  | commit
  | ack (s3 : Nat)
  | recvAck (i : Nat)

/-- One step. The buffer has flushed no more than it has committed, so the `s3Seq` it
reports is at most its head. -/
def step (x : Replication) : Event → Option Replication
  | .reserve payload =>
    if x.helloDone then
      match x.c.reserve payload with
      | none => none
      | some (c, rec) => some { x with c, appending := x.appending ++ [⟨rec, false⟩] }
    else none
  | .store i =>
    match x.appending[i]? with
    | none => none
    | some call => some { x with appending := x.appending.set i { call with stored := true } }
  | .insert i =>
    match x.appending[i]? with
    | some ⟨rec, true⟩ =>
      some { x with
        c := x.c.insert rec
        appending := x.appending.eraseIdx i
        newRecordSignal := true
        inserted := x.inserted ++ [rec] }
    | _ => none
  | .connect s3 =>
    if x.session = .down ∧ x.c.degraded = none ∧ s3 ≤ head x.committed then
      some { x with session := .greeted ⟨head x.committed, s3⟩, wires := [] :: x.wires }
    else none
  | .session found truncateOk => x.stepSession found truncateOk
  | .disconnect => some { x with session := .down }
  | .deliver i queued =>
    match x.wires[i]? with
    | some (rec :: rest) =>
      if queued then some { x with wires := x.wires.set i rest, incoming := x.incoming ++ [rec] }
      else if rec.streamSeq ≤ head x.committed then some { x with wires := x.wires.set i rest }
      else none
    | _ => none
  | .commit =>
    match x.incoming with
    | [] => none
    | rec :: rest => some { x with incoming := rest, committed := x.committed ++ [rec] }
  | .ack s3 =>
    if s3 ≤ head x.committed then some { x with acks := x.acks ++ [⟨head x.committed, s3⟩] } else none
  | .recvAck i =>
    match x.acks[i]? with
    | none => none
    | some ack => some { x with c := (x.c.handleAck ack).1, acks := x.acks.eraseIdx i }

/-- An `Append` may put its record on the list only when no other call holds a
smaller number. -/
def InOrder (x : Replication) : Event → Prop
  | .insert i => match x.appending[i]? with
    | none => True
    | some call => ∀ other ∈ x.appending.eraseIdx i, call.record.streamSeq < other.record.streamSeq
  | _ => True

instance (x : Replication) : ∀ e, Decidable (x.InOrder e)
  | .insert i =>
    match h : x.appending[i]? with
    | none => isTrue (by simp only [InOrder, h])
    | some call => decidable_of_iff
        (∀ other ∈ x.appending.eraseIdx i, call.record.streamSeq < other.record.streamSeq)
        (by simp only [InOrder, h])
  | .reserve _ | .store _ | .connect _ | .session _ _ | .disconnect | .deliver _ _ | .commit
  | .ack _ | .recvAck _ => isTrue trivial

end Replication

end InClusterStorage.Wal.Client
