import InClusterStorage.Wal.Record

/- The client side of a WAL stream (`client.go`): the state of a `streamImpl` and
   its critical sections.

   `Append` takes the mutex to assign a sequence number, releases it for the local
   write, and then puts the record on `retainedRecords` under another mutex; these
   are `reserve`, `unreserve` (the local write failed) and `insert`.
   `handleHelloAck` releases the mutex while it asks the buffer for the record at
   the witness head, so it is two sections: `adoptHead` with `localRecAtHead`, and
   `reconcile`.

   A degraded stream is one whose segment files could not be truncated; it keeps
   the number to truncate to. The files themselves are the subject of the segment
   store: here only whether a write or a truncation succeeds. A closed stream, and
   the texts of the errors, are left out. -/
namespace InClusterStorage.Wal.Client

inductive Level where
  /-- fsynced on this node -/
  | onDisk
  /-- fsynced on the buffer service -/
  | witness
  /-- flushed to permanent object storage -/
  | permanent
  deriving DecidableEq, Repr

structure SyncWaiter where
  seq : Nat
  level : Level
  deriving DecidableEq, Repr

/-- What a waiter is told. -/
inductive WaitResult where
  | ok
  /-- `ErrRecordDiscarded` -/
  | discarded
  /-- `DegradedError` -/
  | degraded
  deriving DecidableEq, Repr

/-- The watermarks that an `Ack` or a `HelloAck` carries. -/
structure Ack where
  witnessAckedStreamSeq : Nat
  s3AckedStreamSeq : Nat
  deriving DecidableEq, Repr

/-- Why `handleHelloAck` fails. -/
inductive HelloError where
  /-- the buffer did not return the record at the witness head -/
  | notFound
  /-- the segment files could not be truncated -/
  | degraded
  deriving DecidableEq, Repr

structure StreamImpl where
  streamID : UUID := 0
  maxRetainedBytes : Nat
  localSeq : Nat := 0
  witnessSeq : Nat := 0
  s3Seq : Nat := 0
  retainedBytes : Int := 0
  waiters : List SyncWaiter := []
  reconciling : Bool := false
  /-- `degradedTruncateSeq`, where `degradedErr` is set -/
  degraded : Option Nat := none
  retainedRecords : List ClientRecord := []
  deriving DecidableEq, Repr

/-- The bytes that a record counts for. -/
def recordSize (payload : List UInt8) : Int := clientFormat.headerSize + payload.length

def totalSize (records : List ClientRecord) : Int := (records.map fun r => recordSize r.payload).sum

variable (ack : Ack) (s : StreamImpl)

namespace StreamImpl

/-! Append. -/

/-- The next sequence number for a payload, unless `Append` would fail or block. -/
def reserve (payload : List UInt8) (s : StreamImpl) : Option (StreamImpl × ClientRecord) :=
  if s.degraded = none ∧ s.reconciling = false ∧ s.retainedBytes + recordSize payload ≤ s.maxRetainedBytes then
    some ({ s with
        localSeq := s.localSeq + 1
        retainedBytes := s.retainedBytes + recordSize payload },
      { streamID := s.streamID, streamSeq := s.localSeq + 1, payload })
  else none

/-- Take the reservation back after the local write failed. -/
def unreserve (rec : ClientRecord) (s : StreamImpl) : StreamImpl :=
  { s with
    localSeq := s.localSeq - 1
    retainedBytes := s.retainedBytes - recordSize rec.payload }

def insert (rec : ClientRecord) (s : StreamImpl) : StreamImpl :=
  { s with retainedRecords := s.retainedRecords ++ [rec] }

/-! Wait. -/

/-- Whether the watermark of the level has reached the sequence number. -/
def reached (s : StreamImpl) (w : SyncWaiter) : Bool :=
  (w.level = .witness ∧ s.witnessSeq ≥ w.seq) ∨ (w.level = .permanent ∧ s.s3Seq ≥ w.seq)

/-- Answer at once, or register a waiter. -/
def waitFor (w : SyncWaiter) (s : StreamImpl) : StreamImpl × Option WaitResult :=
  if s.degraded ≠ none then (s, some .degraded)
  else if w.seq > s.localSeq then (s, some .discarded)
  else if s.reached w then (s, some .ok)
  else ({ s with waiters := s.waiters ++ [w] }, none)

/-- Answer the waiters whose watermark has been reached. -/
def notifyWaitersLocked (s : StreamImpl) : StreamImpl × List (SyncWaiter × WaitResult) :=
  ({ s with waiters := s.waiters.filter fun w => !s.reached w },
    (s.waiters.filter fun w => s.reached w).map fun w => (w, .ok))

/-! Acks. -/

/-- Forget the retained records that are in permanent storage. -/
def cleanupS3AckedLocked (s3AckedSeq : Nat) (s : StreamImpl) : StreamImpl :=
  let remaining := s.retainedRecords.filter fun r => r.streamSeq > s3AckedSeq
  { s with retainedRecords := remaining, retainedBytes := totalSize remaining }

/-- Raise `s3Seq`, and clean up if it has risen. -/
def raiseS3 (s3AckedSeq : Nat) (s : StreamImpl) : StreamImpl :=
  if s3AckedSeq > s.s3Seq then { s with s3Seq := s3AckedSeq }.cleanupS3AckedLocked s3AckedSeq else s

def handleAck (ack : Ack) (s : StreamImpl) : StreamImpl × List (SyncWaiter × WaitResult) :=
  let witnessSeq := if ack.witnessAckedStreamSeq > s.witnessSeq then ack.witnessAckedStreamSeq
    else s.witnessSeq
  ({ s with witnessSeq }.raiseS3 ack.s3AckedStreamSeq).notifyWaitersLocked

/-- Fail all waiters and refuse further calls until a truncation succeeds. -/
def setDegradedLocked (truncateSeq : Nat) (s : StreamImpl) : StreamImpl × List (SyncWaiter × WaitResult) :=
  if s.degraded ≠ none then (s, [])
  else ({ s with degraded := some truncateSeq, reconciling := true, waiters := [] },
    s.waiters.map fun w => (w, .degraded))

/-! The handshake. -/

/-- Continue the numbering from the buffer's head if that is ahead. -/
def adoptHead (witnessHead : Nat) (s : StreamImpl) : StreamImpl :=
  if witnessHead > s.localSeq then { s with localSeq := witnessHead } else s

/-- The retained record at the buffer's head, looked up if the client is ahead. -/
def localRecAtHead (witnessHead : Nat) (s : StreamImpl) : Option ClientRecord :=
  if witnessHead > 0 ∧ s.localSeq > witnessHead
  then s.retainedRecords.find? fun r => r.streamSeq = witnessHead else none

/-- Drop everything above the head and fail its waiters. -/
def discardAfter (witnessHead : Nat) (s : StreamImpl) : StreamImpl × List (SyncWaiter × WaitResult) :=
  let remaining := s.retainedRecords.filter fun r => r.streamSeq ≤ witnessHead
  ({ s with
      retainedRecords := remaining
      retainedBytes := totalSize remaining
      localSeq := witnessHead
      waiters := s.waiters.filter fun w => ¬ w.seq > witnessHead
      reconciling := false },
    (s.waiters.filter fun w => w.seq > witnessHead).map fun w => (w, .discarded))

/-- The last part of `handleHelloAck`: the watermarks, then the waiters. -/
def acceptHelloAck (ack : Ack) (s : StreamImpl) : StreamImpl × List (SyncWaiter × WaitResult) :=
  let notified := ({ s with witnessSeq := ack.witnessAckedStreamSeq }.raiseS3 ack.s3AckedStreamSeq).notifyWaitersLocked
  ({ notified.1 with reconciling := false }, notified.2)

/-- `handleHelloAck` from where it holds the mutex again: `bufferPayload` is what the
buffer returned at the head. -/
def reconcile (ack : Ack) (localRec : ClientRecord) (bufferPayload : Option (List UInt8))
    (truncateOk : Bool) (s : StreamImpl) : StreamImpl × List (SyncWaiter × WaitResult) × Option HelloError :=
  match bufferPayload with
  | none => (s, [], some .notFound)
  | some payload =>
    if localRec.payload = payload then
      let accepted := s.acceptHelloAck ack
      (accepted.1, accepted.2, none)
    else if truncateOk then
      let discarded := s.discardAfter ack.witnessAckedStreamSeq
      let accepted := discarded.1.acceptHelloAck ack
      (accepted.1, discarded.2 ++ accepted.2, none)
    else
      let degraded := s.setDegradedLocked ack.witnessAckedStreamSeq
      (degraded.1, degraded.2, some .degraded)

/-! What the watermarks do to the rest. -/

@[simp] theorem raiseS3_localSeq (n : Nat) (s : StreamImpl) : (s.raiseS3 n).localSeq = s.localSeq := by
  unfold raiseS3; split <;> rfl

@[simp] theorem raiseS3_witnessSeq (n : Nat) (s : StreamImpl) : (s.raiseS3 n).witnessSeq = s.witnessSeq := by
  unfold raiseS3; split <;> rfl

@[simp] theorem raiseS3_degraded (n : Nat) (s : StreamImpl) : (s.raiseS3 n).degraded = s.degraded := by
  unfold raiseS3; split <;> rfl

/-- Only records in permanent storage are forgotten. -/
theorem raiseS3_retained (n : Nat) (s : StreamImpl) :
    (s.raiseS3 n).retainedRecords.Sublist s.retainedRecords ∧
      ∀ r ∈ s.retainedRecords, r ∈ (s.raiseS3 n).retainedRecords ∨ r.streamSeq ≤ n := by
  unfold raiseS3
  split
  · refine ⟨List.filter_sublist, fun r hr => ?_⟩
    by_cases hle : r.streamSeq ≤ n
    · exact .inr hle
    · exact .inl (List.mem_filter.2 ⟨hr, by simpa using hle⟩)
  · exact ⟨List.Sublist.refl _, fun r hr => .inl hr⟩

theorem reserve_cases {payload : List UInt8} {s s' : StreamImpl} {rec : ClientRecord}
    (h : s.reserve payload = some (s', rec)) :
    rec.streamSeq = s.localSeq + 1 ∧ s'.localSeq = s.localSeq + 1 ∧ s'.degraded = s.degraded ∧
      s'.retainedRecords = s.retainedRecords ∧ s'.witnessSeq = s.witnessSeq := by
  unfold reserve at h
  split at h
  · cases h; exact ⟨rfl, rfl, rfl, rfl, rfl⟩
  · simp at h

theorem waitFor_cases (w : SyncWaiter) (s : StreamImpl) :
    (s.waitFor w).1.localSeq = s.localSeq ∧ (s.waitFor w).1.degraded = s.degraded ∧
      (s.waitFor w).1.retainedRecords = s.retainedRecords := by
  unfold waitFor
  split_ifs <;> exact ⟨rfl, rfl, rfl⟩

/-- `acceptHelloAck` keeps the retained records except those in permanent storage. -/
theorem accept_sublist :
    (s.acceptHelloAck ack).1.retainedRecords.Sublist s.retainedRecords ∧
      ∀ r ∈ s.retainedRecords, r ∈ (s.acceptHelloAck ack).1.retainedRecords ∨ r.streamSeq ≤ ack.s3AckedStreamSeq :=
  raiseS3_retained ack.s3AckedStreamSeq { s with witnessSeq := ack.witnessAckedStreamSeq }

@[simp] theorem accept_localSeq : (s.acceptHelloAck ack).1.localSeq = s.localSeq := raiseS3_localSeq _ _

@[simp] theorem accept_witnessSeq :
    (s.acceptHelloAck ack).1.witnessSeq = ack.witnessAckedStreamSeq := raiseS3_witnessSeq _ _

@[simp] theorem accept_degraded : (s.acceptHelloAck ack).1.degraded = s.degraded := raiseS3_degraded _ _

@[simp] theorem handleAck_localSeq : (s.handleAck ack).1.localSeq = s.localSeq := raiseS3_localSeq _ _

theorem adoptHead_spec (h : Nat) (s : StreamImpl) :
    (s.adoptHead h).retainedRecords = s.retainedRecords ∧ (s.adoptHead h).degraded = s.degraded ∧
      s.localSeq ≤ (s.adoptHead h).localSeq ∧ h ≤ (s.adoptHead h).localSeq := by
  unfold adoptHead
  split
  · exact ⟨rfl, rfl, by simp only; omega, le_rfl⟩
  · exact ⟨rfl, rfl, le_rfl, by omega⟩

end StreamImpl

end InClusterStorage.Wal.Client
