import Mathlib.Data.List.Sort
import Mathlib.Data.List.AList
import InClusterStorage.Wal.Record

/- Segment files (`header.go`, `segment.go`): a sixteen-byte header and then
   records, appended one by one. `ClientSegmentStore` and `LogSegmentStore` are
   the same code over the two record formats, so the store here is generic in the
   format; a segment file is named after the sequence number or position of the
   record it was opened for.

   Every call to the file system can fail, as the `Faults` of an append say, and
   a failed write leaves some first part of its bytes in the file. `TruncateAfter`
   and the deletion of old segments are not part of this model. -/
namespace InClusterStorage.Wal

open Frame List

/-! The segment header. -/

/-- The bytes "OFWL". -/
def segmentMagicBytes : List UInt8 := [0x4f, 0x46, 0x57, 0x4c]

def segmentVersion : Nat := 1

def segmentHeaderSize : Nat := 16

/-- The encoding of `DefaultSegmentHeader`: magic, version, header length, reserved. -/
def defaultSegmentHeader : List UInt8 :=
  segmentMagicBytes ++ toBytes 2 segmentVersion ++ toBytes 2 segmentHeaderSize ++ toBytes 8 0

inductive SegmentError where
  | eof
  | truncatedSegmentHeader
  | unsupportedSegmentVersion (version current : Nat)
  | invalidSegmentHeaderLength (length : Nat)
  | unversionedSegment (magic : List UInt8)
  | invalidSegmentMagic (magic : List UInt8)
  deriving DecidableEq, Repr

/-- The offset at which the records of a file start. The reader is at the start of
`bytes`; a short read of at least four bytes still has its magic looked at. -/
def readSegmentHeader (acceptUnversioned : Bool) (bytes : List UInt8) : Except SegmentError Nat :=
  if bytes = [] then .error .eof
  else if bytes.length < 4 then .error .truncatedSegmentHeader
  else
    let magic := bytes.take 4
    if magic = segmentMagicBytes then
      if bytes.length < segmentHeaderSize then .error .truncatedSegmentHeader
      else
        let version := ofBytes ((bytes.drop 4).take 2)
        let length := ofBytes ((bytes.drop 6).take 2)
        if version > segmentVersion then .error (.unsupportedSegmentVersion version segmentVersion)
        else if length < 8 then .error (.invalidSegmentHeaderLength length)
        else .ok length
    else if magic = clientMagicBytes ∨ magic = logMagicBytes then
      if acceptUnversioned then .ok 0 else .error (.unversionedSegment magic)
    else .error (.invalidSegmentMagic magic)

@[simp] theorem length_defaultSegmentHeader : defaultSegmentHeader.length = segmentHeaderSize := rfl

/-- Only the first sixteen bytes are read. -/
theorem readSegmentHeader_append (accept : Bool) {header : List UInt8} (h : segmentHeaderSize ≤ header.length)
    (rest : List UInt8) : readSegmentHeader accept (header ++ rest) = readSegmentHeader accept header := by
  unfold segmentHeaderSize at h
  have hfield {a k : Nat} (hk : a + k ≤ 16) : ((header ++ rest).drop a).take k = (header.drop a).take k := by
    rw [drop_append_of_le_length (by omega), take_append_of_le_length (by rw [length_drop]; omega)]
  have hmagic : (header ++ rest).take 4 = header.take 4 := hfield (a := 0) (by decide)
  have hnil : header ≠ [] := by
    rintro rfl
    exact absurd h (by decide)
  have hlong {k : Nat} (hk : k ≤ 16) : ¬ header.length < k ∧ ¬ (header ++ rest).length < k := by
    rw [length_append]
    omega
  simp only [readSegmentHeader, segmentHeaderSize, append_eq_nil_iff, hnil, false_and, hlong, hmagic, hfield,
    Nat.reduceLeDiff, Nat.reduceAdd, if_false]

/-- A header that is accepted by itself is a whole one. -/
theorem segmentHeaderSize_le {accept : Bool} {header : List UInt8}
    (h : readSegmentHeader accept header = .ok header.length) : segmentHeaderSize ≤ header.length := by
  simp only [readSegmentHeader] at h
  split_ifs at h with _ hshort
  · omega
  · have hzero := Except.ok.inj h
    omega

theorem readSegmentHeader_default (accept : Bool) (rest : List UInt8) :
    readSegmentHeader accept (defaultSegmentHeader ++ rest) = .ok segmentHeaderSize :=
  (readSegmentHeader_append accept le_rfl rest).trans (by cases accept <;> decide)

/-! Scanning a file. -/

section
variable {α : Type*} (f : Format α)

/-- The records of a file and the file as the scan leaves it: a torn end is cut
off. A file without any byte has no records and no header. -/
def scanSegmentFile (acceptUnversioned : Bool) (bytes : List UInt8) : Except SegmentError (List α × List UInt8) :=
  match readSegmentHeader acceptUnversioned bytes with
  | .error .eof => .ok ([], bytes)
  | .error e => .error e
  | .ok offset =>
    let found := f.scanAll (bytes.drop offset)
    .ok (found.1, bytes.take (bytes.length - found.2.length))

variable {f} {accept : Bool} {header : List UInt8} {records : List α}

/-- What does not decode behind the records is cut off. -/
theorem scanSegmentFile_encode (hheader : ∀ rest, readSegmentHeader accept (header ++ rest) = .ok header.length)
    (hfits : ∀ r ∈ records, f.Fits r) {part : List UInt8} (hpart : ∃ e, f.decode part = .error e) :
    scanSegmentFile f accept (header ++ (records.flatMap f.encode ++ part)) =
      .ok (records, header ++ records.flatMap f.encode) := by
  simp only [scanSegmentFile, hheader, drop_left, f.scanAll_encode hfits hpart]
  rw [← append_assoc, length_append, Nat.add_sub_cancel, take_left]

theorem scanSegmentFile_torn (hheader : ∀ rest, readSegmentHeader accept (header ++ rest) = .ok header.length) {next : α}
    (hfits : ∀ r ∈ next :: records, f.Fits r) {t : List UInt8} (ht : t <+: f.encode next) (hne : t ≠ f.encode next) :
    scanSegmentFile f accept (header ++ records.flatMap f.encode ++ t) = .ok (records, header ++ records.flatMap f.encode) ∧
      scanSegmentFile f accept (header ++ records.flatMap f.encode) =
        .ok (records, header ++ records.flatMap f.encode) := by
  obtain ⟨hnext, hrecords⟩ := forall_mem_cons.mp hfits
  have hscan {part : List UInt8} (hpart : ∃ e, f.decode part = .error e) := scanSegmentFile_encode hheader hrecords hpart
  refine ⟨?_, ?_⟩
  · rw [append_assoc]
    exact hscan (f.decode_torn hnext ht hne)
  · simpa using hscan f.decode_nil

end

def scanClientSegmentFile := scanSegmentFile clientFormat

def scanLogSegmentFile := scanSegmentFile logFormat

/-- **A torn end is cut off.** The file has a header that is accepted by itself, records, and less
than all bytes of one more. The scan keeps the bytes of the records, and a second one as well. -/
theorem scan_torn_tail {accept : Bool} {header : List UInt8}
    (hvalid : readSegmentHeader accept header = .ok header.length) :
    (∀ (records : List ClientRecord) (next : ClientRecord) (t : List UInt8), (∀ r ∈ next :: records, r.Fits) →
      t <+: next.encode → t ≠ next.encode → let kept := header ++ records.flatMap ClientRecord.encode
      scanClientSegmentFile accept (kept ++ t) = .ok (records, kept) ∧
        scanClientSegmentFile accept kept = .ok (records, kept)) ∧
    ∀ (records : List LogRecord) (next : LogRecord) (t : List UInt8), (∀ r ∈ next :: records, r.Fits) →
      t <+: next.encode → t ≠ next.encode → let kept := header ++ records.flatMap LogRecord.encode
      scanLogSegmentFile accept (kept ++ t) = .ok (records, kept) ∧
        scanLogSegmentFile accept kept = .ok (records, kept) := by
  have hheader (rest) : readSegmentHeader accept (header ++ rest) = .ok header.length :=
    (readSegmentHeader_append accept (segmentHeaderSize_le hvalid) rest).trans hvalid
  exact ⟨fun _ _ _ hfits => scanSegmentFile_torn hheader hfits, fun _ _ _ hfits => scanSegmentFile_torn hheader hfits⟩

theorem scan_torn_tail_client : let r : ClientRecord := ⟨7, 1, [1]⟩
    let kept := defaultSegmentHeader ++ [r].flatMap ClientRecord.encode
    scanClientSegmentFile false (kept ++ r.encode.take 3) = .ok ([r], kept) :=
  ((@scan_torn_tail false defaultSegmentHeader (by decide)).1 [⟨7, 1, [1]⟩] ⟨7, 1, [1]⟩ _ (by decide)
    ( take_prefix 3 _) (by decide +kernel)).1

/-! The store. -/

structure SegmentMeta where
  /-- the number in the file's name -/
  name : Nat
  firstSeq : Nat
  lastSeq : Nat
  size : Nat
  recordCount : Nat
  deriving DecidableEq, Repr

/-- A segment that has its header only. -/
def SegmentMeta.new (name : Nat) : SegmentMeta :=
  { name, firstSeq := name, lastSeq := name, size := defaultSegmentHeader.length, recordCount := 0 }

def SegmentMeta.grow (m : SegmentMeta) (seq recordLen : Nat) : SegmentMeta :=
  { m with
    firstSeq := if m.recordCount = 0 then seq else m.firstSeq
    lastSeq := seq
    size := m.size + recordLen
    recordCount := m.recordCount + 1 }

/-- Segment files by the number in their names. -/
abbrev SegmentFiles := AList fun _ : Nat => List UInt8

/-- The order of the names `%019d` as strings: a number of twenty digits sorts
behind its first nineteen. -/
def segmentNameLe (m n : Nat) : Bool :=
  let key := fun k : Nat => if k < 10 ^ 19 then (k, 0) else (k / 10, 1 + k % 10)
  (key m).1 < (key n).1 || ((key m).1 == (key n).1 && (key m).2 ≤ (key n).2)

structure SegmentStore where
  maxSegmentSize : Nat
  acceptUnversioned : Bool := false
  noFsync : Bool := false
  files : SegmentFiles := ∅
  /-- the open file (`activeFile`) with its metadata -/
  active : Option SegmentMeta := none
  /-- the segments that are not open -/
  segments : List SegmentMeta := []

/-- What goes wrong while one record is appended: a failed write leaves the given
number of its bytes. -/
structure Faults where
  closeFails : Bool := false
  openFails : Bool := false
  header : Option Nat := none
  write : Option Nat := none
  deriving DecidableEq, Repr

/-- The bytes of `data` that reach the file. -/
def written (fault : Option Nat) (data : List UInt8) : List UInt8 :=
  match fault with
  | none => data
  | some k => data.take k

namespace SegmentStore

variable {α : Type*} (f : Format α) (key : α → Nat)

/-- The bytes of a file, none where it does not exist. -/
def bytesOf (s : SegmentStore) (name : Nat) : List UInt8 := (s.files.lookup name).getD []

/-- Append to the bytes of a file, made first where there is none. -/
def extend (s : SegmentStore) (name : Nat) (data : List UInt8) : SegmentStore :=
  { s with files := s.files.insert name (s.bytesOf name ++ data) }

/-- Close the open file, open `name` and write its header. -/
def rotateLocked (faults : Faults) (name : Nat) (s : SegmentStore) : SegmentStore × Bool :=
  let closed := { s with active := none, segments := s.segments ++ s.active.toList }
  if s.active.isSome ∧ faults.closeFails then (closed, false)
  else if faults.openFails then (closed, false)
  else
    let s := closed.extend name (written faults.header defaultSegmentHeader)
    if faults.header.isSome then (s, false)
    else
      ({ s with active := some (.new name) }, true)

/-- The open file is missing, or the record would make it too long. -/
def needsRotation (s : SegmentStore) (recordLen : Nat) : Bool :=
  match s.active with
  | none => true
  | some m => decide (m.size + recordLen > s.maxSegmentSize) && decide (m.recordCount > 0)

def writeRecord (faults : Faults) (r : α) (s : SegmentStore) : SegmentStore × Bool :=
  match s.active with
  | none => (s, false)
  | some m =>
    let s := s.extend m.name (written faults.write (f.encode r))
    if faults.write.isSome then (s, false)
    else
      ({ s with active := some (m.grow (key r) (f.encode r).length) }, true)

/-- `ClientSegmentStore.Append`, and one round of `LogSegmentStore.AppendBatch`. -/
def append (faults : Faults) (r : α) (s : SegmentStore) : SegmentStore × Bool :=
  if s.needsRotation (f.encode r).length then
    let rotated := s.rotateLocked faults (key r)
    if rotated.2 then rotated.1.writeRecord f key faults r else rotated
  else s.writeRecord f key faults r

/-- `Sync`: whether it returns nil. -/
def sync (syncFails : Bool) (s : SegmentStore) : Bool :=
  !(s.active.isSome && !s.noFsync && syncFails)

/-- `LogSegmentStore.AppendBatch`: append until one record fails, then sync. -/
def appendBatch (syncFails : Bool) : List (α × Faults) → SegmentStore → SegmentStore × Bool
  | [], s => (s, s.sync syncFails)
  | (r, faults) :: rest, s =>
    let appended := s.append f key faults r
    if appended.2 then appendBatch syncFails rest appended.1 else appended

/-- Scan the files one after the other; the first error ends it. -/
def scanFiles (s : SegmentStore) : List Nat → Except SegmentError (List (Nat × List α × List UInt8))
  | [] => .ok []
  | name :: rest =>
    match scanSegmentFile f s.acceptUnversioned (s.bytesOf name) with
    | .error e => .error e
    | .ok found =>
      match scanFiles s rest with
      | .error e => .error e
      | .ok founds => .ok ((name, found) :: founds)

/-- The metadata of a scanned file. -/
def scannedMeta (name : Nat) (records : List α) (kept : List UInt8) : SegmentMeta :=
  { name
    firstSeq := (records.head?.map key).getD 0
    lastSeq := (records.getLast?.map key).getD 0
    size := kept.length
    recordCount := records.length }

/-- The store after the scan: files without records are removed, torn ends are cut
off, and no file is open. -/
def reopened (s : SegmentStore) (founds : List (Nat × List α × List UInt8)) : SegmentStore :=
  let live := founds.filter fun x => !x.2.1.isEmpty
  { s with
    files := live.foldl (fun files x => files.insert x.1 x.2.2) ∅
    active := none
    segments := live.map fun x => scannedMeta key x.1 x.2.1 x.2.2 }

/-- `NewClientSegmentStore` and `NewLogSegmentStore` on the files of a store. -/
def reopen (s : SegmentStore) : Except SegmentError (SegmentStore × List α) :=
  match s.scanFiles f (s.files.keys.insertionSort fun m n => segmentNameLe m n = true) with
  | .error e => .error e
  | .ok founds => .ok (s.reopened key founds, founds.flatMap fun x => x.2.1)

end SegmentStore

end InClusterStorage.Wal
