import Mathlib.Data.List.Sort
import Mathlib.Data.List.AList
import InClusterStorage.Wal.Record

/- The per-stream files of the WAL buffer (`stream_store.go`): one `streamWriter`
   with its local directory and the objects stored under its prefix.

   Records reach a stream through `appendRecords`, which only queues them. A
   flush writes the queue behind the open file `from<a>.wal`; a seal renames the
   open file to `from<a>-to<b>.wal`, where `a` is the sequence number the file
   was opened at and `b` the highest one the writer has ever written, and then
   uploads it under the same name. A failed upload is retried later from the
   list of sealed files.

   A file is the list of records it holds: the segment header and the encoding
   of the records are the subject of the segment files. File names are their
   parsed form, since `%020d` keeps distinct numbers distinct. Sequence numbers
   and positions are natural numbers: the only sum is `lastSeq + 1`, and its
   wrap to zero would name an open file that no record can be written to.
   The time a file was opened and its size only decide when the periodic worker
   seals it; here a stream may be sealed at any time, and both are left out. -/
namespace InClusterStorage.Wal.Buffer

open List AList

/-- The name of a per-stream file or object (`FormatStreamFileName`). -/
inductive StreamFileName where
  | opened (fromSeq : Nat)
  | sealed (fromSeq toSeq : Nat)
  deriving DecidableEq, Repr

/-- The order of the names as strings: by `fromSeq`, the sealed names (`-to`)
before the open one (`.wal`), and then by `toSeq`. -/
def StreamFileName.le : StreamFileName → StreamFileName → Bool
  | .opened a, .opened b => a ≤ b
  | .opened a, .sealed b _ => a < b
  | .sealed a _, .opened b => a ≤ b
  | .sealed a c, .sealed b d => a < b || (a == b && c ≤ d)

/-- Files or objects by name, each the list of its records. -/
abbrev Files := AList fun _ : StreamFileName => List LogRecord

namespace Files

/-- The records of a file, none where it does not exist. -/
def records (f : Files) (n : StreamFileName) : List LogRecord := (f.lookup n).getD []

/-- The names in the order in which a directory or a bucket lists them. -/
def listing (f : Files) : List StreamFileName :=
  f.keys.insertionSort fun a b => StreamFileName.le a b = true

/-- The sealed names, as pairs of numbers. -/
def sealedNames (f : Files) : List (Nat × Nat) :=
  f.keys.filterMap fun
    | .opened _ => none
    | .sealed a b => some (a, b)

/-- The sequence numbers at which the sealed files end. -/
def ends (f : Files) : List Nat := f.sealedNames.map Prod.snd

/-- The sequence numbers of the records in the sealed files. -/
def sealedSeqs (f : Files) : List Nat :=
  f.sealedNames.flatMap fun p => seqs (f.records (.sealed p.1 p.2))

theorem records_insert (f : Files) (n n' : StreamFileName) (d : List LogRecord) :
    records (f.insert n d) n' = if n' = n then d else records f n' := by
  unfold records
  split
  · next h => subst h; simp
  · next h => rw [lookup_insert_ne h]

theorem records_erase (f : Files) (n n' : StreamFileName) :
    records (f.erase n) n' = if n' = n then [] else records f n' := by
  unfold records
  split
  · next h => subst h; simp
  · next h => rw [lookup_erase_ne h]

variable {f : Files} {n : StreamFileName} {q : Nat}

theorem records_eq_nil (h : n ∉ f) : records f n = [] := by
  simp [records, lookup_eq_none.2 h]

theorem mem_of_records (h : q ∈ seqs (records f n)) : n ∈ f := by
  by_contra hn
  simp [records_eq_nil hn] at h

theorem mem_of_mem_insert {n' : StreamFileName} {d : List LogRecord} (h : n' ∈ f.insert n d) : n' = n ∨ n' ∈ f := by
  rwa [mem_insert] at h

@[simp] theorem mem_listing : n ∈ f.listing ↔ n ∈ f := by
  rw [listing, mem_insertionSort, AList.mem_keys]

theorem mem_sealedNames {a b : Nat} : (a, b) ∈ f.sealedNames ↔ StreamFileName.sealed a b ∈ f := by
  rw [sealedNames, mem_filterMap, AList.mem_keys]
  constructor
  · rintro ⟨n, hn, h⟩
    cases n with
    | opened _ => simp at h
    | sealed a' b' => simp only [Option.some.injEq, Prod.mk.injEq] at h; rwa [← h.1, ← h.2]
  · intro h
    exact ⟨_, h, rfl⟩

theorem mem_ends {b : Nat} : b ∈ f.ends ↔ ∃ a, StreamFileName.sealed a b ∈ f := by
  simp only [ends, mem_map, Prod.exists, mem_sealedNames]
  constructor
  · rintro ⟨a, _, h, rfl⟩
    exact ⟨a, h⟩
  · rintro ⟨a, h⟩
    exact ⟨a, b, h, rfl⟩

theorem mem_sealedSeqs : q ∈ f.sealedSeqs ↔ ∃ a b, q ∈ seqs (f.records (.sealed a b)) := by
  simp only [sealedSeqs, mem_flatMap, Prod.exists, mem_sealedNames]
  constructor
  · rintro ⟨a, b, -, h⟩
    exact ⟨a, b, h⟩
  · rintro ⟨a, b, h⟩
    exact ⟨a, b, mem_of_records h, h⟩

/-- The sealed records are those of one file and those of the others. -/
theorem mem_sealedSeqs_erase (a b : Nat) :
    q ∈ f.sealedSeqs ↔ q ∈ seqs (f.records (.sealed a b)) ∨ q ∈ sealedSeqs (f.erase (.sealed a b)) := by
  simp only [mem_sealedSeqs, records_erase]
  constructor
  · rintro ⟨a', b', h⟩
    by_cases he : StreamFileName.sealed a' b' = .sealed a b
    · exact .inl (he ▸ h)
    · exact .inr ⟨a', b', by rwa [if_neg he]⟩
  · rintro (h | ⟨a', b', h⟩)
    · exact ⟨a, b, h⟩
    · split at h
      · simp at h
      · exact ⟨a', b', h⟩

theorem mem_sealedSeqs_insert {a b : Nat} {d : List LogRecord} :
    q ∈ sealedSeqs (f.insert (.sealed a b) d) ↔ q ∈ seqs d ∨ q ∈ sealedSeqs (f.erase (.sealed a b)) := by
  rw [mem_sealedSeqs_erase a b, records_insert, if_pos rfl]
  simp only [mem_sealedSeqs, records_erase, records_insert]
  refine or_congr_right ⟨?_, ?_⟩ <;>
  · rintro ⟨a', b', h⟩
    refine ⟨a', b', ?_⟩
    split_ifs at h ⊢ <;> assumption

end Files

structure StreamMeta where
  fromSeq : Nat
  toSeq : Nat
  /-- position of the last record in this sealed file -/
  toPos : Nat := 0
  /-- local path on disk if present -/
  path : Option StreamFileName := none
  /-- object storage key if uploaded -/
  key : Option StreamFileName := none
  deriving DecidableEq, Repr

def StreamMeta.name (m : StreamMeta) : StreamFileName := .sealed m.fromSeq m.toSeq

structure StreamWriter where
  openFrom : Nat := 0
  lastSeq : Nat := 0
  firstPos : Nat := 0
  lastPos : Nat := 0
  recCount : Nat := 0
  pending : List LogRecord := []
  sealed : List StreamMeta := []
  uploadedTo : Nat := 0
  uploadedPos : Nat := 0
  discovered : Bool := false
  sealedSinceLastPass : Bool := false
  evicted : Bool := false

/-- A stream: its writer, its directory on the buffer's disk, and the objects
under its prefix in object storage. -/
structure Stream where
  w : StreamWriter := {}
  dir : Files := ∅
  objects : Files := ∅

/-- Queue the records; an evicted writer takes none. -/
def appendRecords (records : List LogRecord) (s : Stream) : Stream × Bool :=
  if s.w.evicted then (s, false)
  else ({ s with w := { s.w with pending := s.w.pending ++ records } }, true)

variable (w : StreamWriter)

/-- The loop of `flushPendingLocked` over one record. -/
def StreamWriter.note (rec : LogRecord) : StreamWriter :=
  { w with
    lastSeq := if rec.streamSeq > w.lastSeq then rec.streamSeq else w.lastSeq
    firstPos := if w.firstPos = 0 ∨ rec.position < w.firstPos then rec.position else w.firstPos
    lastPos := if rec.position > w.lastPos then rec.position else w.lastPos
    recCount := w.recCount + 1 }

/-- Where `flushPendingLocked` opens the file when `first` heads the queue. -/
def StreamWriter.flushFrom (first : LogRecord) : Nat :=
  if w.recCount = 0 then first.streamSeq
  else if w.openFrom = 0 then first.streamSeq
  else w.openFrom

/-- The writer after the records, `first` the first of them, went to the open file. -/
def StreamWriter.wrote (first : LogRecord) (records : List LogRecord) : StreamWriter :=
  { records.foldl StreamWriter.note { w with openFrom := w.flushFrom first } with pending := [] }

/-- Write the queued records behind the open file. -/
def flushPendingLocked (s : Stream) : Stream :=
  match s.w.pending with
  | [] => s
  | first :: _ =>
    let name := StreamFileName.opened (s.w.flushFrom first)
    { s with
      w := s.w.wrote first s.w.pending
      dir := s.dir.insert name (s.dir.records name ++ s.w.pending) }

/-- The stream after `PutObject` of the sealed file `m` with the content `data`. -/
def afterPut (m : StreamMeta) (data : List LogRecord) (s : Stream) : Stream :=
  { s with
    objects := s.objects.insert m.name data
    w := if m.toSeq > s.w.uploadedTo
      then { s.w with uploadedTo := m.toSeq, uploadedPos := m.toPos } else s.w }

/-- Upload one sealed file unless it has been uploaded or is not on disk;
`putOk` says whether `PutObject` succeeds. -/
def uploadSealedMetaLocked (putOk : Bool) (m : StreamMeta) (s : Stream) : StreamMeta × Stream :=
  match m.key, m.path with
  | none, some path =>
    match s.dir.lookup path, putOk with
    | some data, true => ({ m with key := some m.name }, afterPut m data s)
    | _, _ => (m, s)
  | _, _ => (m, s)

def Stream.setMeta (s : Stream) (i : Nat) (m : StreamMeta) : Stream :=
  { s with w := { s.w with sealed := s.w.sealed.set i m } }

/-- `uploadSealedMetaLocked` on the `i`-th entry of the list of sealed files. -/
def uploadAt (putOk : Bool) (i : Nat) (s : Stream) : Stream :=
  match s.w.sealed[i]? with
  | none => s
  | some m =>
    let result := uploadSealedMetaLocked putOk m s
    result.2.setMeta i result.1

/-- Try every sealed file in turn; `puts i` is the outcome of the `i`-th upload. -/
def uploadPendingSealedLocked (puts : Nat → Bool) (s : Stream) : Stream :=
  (List.range s.w.sealed.length).foldl (fun s i => uploadAt (puts i) i s) s

/-- The entry for the file that `sealLocked` seals. -/
def sealedMeta : StreamMeta :=
  { fromSeq := w.openFrom, toSeq := w.lastSeq, toPos := w.lastPos, path := some (.sealed w.openFrom w.lastSeq) }

/-- The stream after the open file, holding `data`, was renamed to its sealed name. -/
def afterRename (data : List LogRecord) (s : Stream) : Stream :=
  { s with
    dir := (s.dir.erase (.opened s.w.openFrom)).insert (sealedMeta s.w).name data
    w := { s.w with
      sealed := s.w.sealed ++ [sealedMeta s.w], openFrom := s.w.lastSeq + 1, recCount := 0
      sealedSinceLastPass := true } }

/-- The rename of `sealLocked`: `none` where the stream is idle, or where its
open file cannot be opened. -/
def renameOpen (s : Stream) : Option Stream :=
  if s.w.recCount = 0 ∨ s.w.openFrom = 0 then none else
  match s.dir.lookup (.opened s.w.openFrom) with
  | none => none
  | some data => some (afterRename data s)

/-- Flush, rename the open file to its sealed name, then upload it. -/
def sealLocked (putOk : Bool) (s : Stream) : Stream :=
  match renameOpen (flushPendingLocked s) with
  | none => flushPendingLocked s
  | some s' => uploadAt putOk (flushPendingLocked s).w.sealed.length s'

/-- The first entry for `fromSeq`-`toSeq` changed by `f`, or `new` at the end. -/
def noteMeta (new : StreamMeta) (f : StreamMeta → StreamMeta) : List StreamMeta → List StreamMeta
  | [] => [new]
  | sm :: rest =>
    if sm.fromSeq = new.fromSeq ∧ sm.toSeq = new.toSeq then f sm :: rest
    else sm :: noteMeta new f rest

/-- One entry of the local directory in `discoverRemoteSealedLocked`. -/
def noteLocal : StreamFileName → StreamWriter
  | .opened _ => w
  | .sealed a b =>
    { w with
      sealed := noteMeta { fromSeq := a, toSeq := b, path := some (.sealed a b) }
        (fun sm => if sm.path = none then { sm with path := some (.sealed a b) } else sm) w.sealed
      lastSeq := if b > w.lastSeq then b else w.lastSeq }

/-- One listed object in `discoverRemoteSealedLocked`. -/
def noteRemote : StreamFileName → StreamWriter
  | .opened _ => w
  | .sealed a b =>
    { w with
      uploadedTo := if b > w.uploadedTo then b else w.uploadedTo
      lastSeq := if b > w.lastSeq then b else w.lastSeq
      sealed := noteMeta { fromSeq := a, toSeq := b, key := some (.sealed a b) }
        (fun sm => if sm.key = none then { sm with key := some (.sealed a b) } else sm) w.sealed }

/-- Learn the sealed files of the directory and of object storage; `listOk`
says whether the listing of the backend succeeds. `sort.Slice` leaves the order
of equal keys open; here it is stable. -/
def discoverRemoteSealedLocked (listOk : Bool) (s : Stream) : Stream :=
  let w := s.dir.listing.foldl noteLocal s.w
  if listOk then
    let w := s.objects.listing.foldl noteRemote w
    { s with
      w := { w with
        discovered := true
        sealed := w.sealed.insertionSort fun a b => a.fromSeq ≤ b.fromSeq } }
  else { s with w := w }

/-- The list of sealed files, discovered first if it has not been. -/
def getSealedMetas (listOk : Bool) (s : Stream) : Stream × List StreamMeta :=
  let s := if s.w.discovered then s else discoverRemoteSealedLocked listOk s
  (s, s.w.sealed)

/-! What each operation does to the files, the objects and the writer. -/

@[simp] theorem sealedMeta_name : (sealedMeta w).name = .sealed w.openFrom w.lastSeq := rfl

/-- What the loop over the queued records leaves and what it changes. -/
structure NotedAs (records : List LogRecord) (w w' : StreamWriter) : Prop where
  openFrom : w'.openFrom = w.openFrom
  sealed : w'.sealed = w.sealed
  uploadedTo : w'.uploadedTo = w.uploadedTo
  discovered : w'.discovered = w.discovered
  evicted : w'.evicted = w.evicted
  recCount : w'.recCount = w.recCount + records.length
  lastSeq_le : w.lastSeq ≤ w'.lastSeq
  seq_le : ∀ r ∈ records, r.streamSeq ≤ w'.lastSeq

theorem notedAs_foldl (records : List LogRecord) (w : StreamWriter) :
    NotedAs records w (records.foldl StreamWriter.note w) := by
  induction records generalizing w with
  | nil => exact ⟨rfl, rfl, rfl, rfl, rfl, rfl, le_rfl, by simp⟩
  | cons rec rest ih =>
    have h := ih (w.note rec)
    have hle : w.lastSeq ≤ (w.note rec).lastSeq ∧ rec.streamSeq ≤ (w.note rec).lastSeq := by
      simp only [StreamWriter.note]
      split <;> omega
    refine ⟨h.openFrom, h.sealed, h.uploadedTo, h.discovered, h.evicted, ?_, hle.1.trans h.lastSeq_le, ?_⟩
    · have := h.recCount
      simp only [foldl_cons, length_cons, StreamWriter.note] at this ⊢
      omega
    · exact forall_mem_cons.2 ⟨hle.2.trans h.lastSeq_le, h.seq_le⟩

variable {s : Stream}

theorem flush_nil (h : s.w.pending = []) : flushPendingLocked s = s := by
  simp only [flushPendingLocked, h]

/-- A flush of a queue headed by `first` appends the queue to one open file. -/
theorem flush_cons {first : LogRecord} {rest : List LogRecord}
    (h : s.w.pending = first :: rest) :
    flushPendingLocked s =
      { s with
        w := s.w.wrote first s.w.pending
        dir := s.dir.insert (.opened (s.w.flushFrom first))
          (s.dir.records (.opened (s.w.flushFrom first)) ++ s.w.pending) } := by
  simp only [flushPendingLocked, h]

/-- What a flush leaves of the writer and what it changes. -/
theorem wrote_notedAs (first : LogRecord) (records : List LogRecord) :
    NotedAs records { w with openFrom := w.flushFrom first } (w.wrote first records) := by
  have h := notedAs_foldl records { w with openFrom := w.flushFrom first }
  exact { h with }

@[simp] theorem flush_objects (s : Stream) : (flushPendingLocked s).objects = s.objects := by
  unfold flushPendingLocked
  split <;> rfl

@[simp] theorem flush_pending (s : Stream) : (flushPendingLocked s).w.pending = [] := by
  cases h : s.w.pending with
  | nil => rw [flush_nil h, h]
  | cons first rest => rw [flush_cons h]; rfl

@[simp] theorem flush_records_sealed (s : Stream) (a b : Nat) :
    (flushPendingLocked s).dir.records (.sealed a b) = s.dir.records (.sealed a b) := by
  unfold flushPendingLocked
  split
  · rfl
  · simp [Files.records_insert]

@[simp] theorem flush_mem_sealed (s : Stream) (a b : Nat) :
    StreamFileName.sealed a b ∈ (flushPendingLocked s).dir ↔ StreamFileName.sealed a b ∈ s.dir := by
  unfold flushPendingLocked
  split
  · rfl
  · simp [mem_insert]

@[simp] theorem flush_sealed (s : Stream) : (flushPendingLocked s).w.sealed = s.w.sealed := by
  cases h : s.w.pending with
  | nil => rw [flush_nil h]
  | cons first rest => rw [flush_cons h]; exact (wrote_notedAs s.w first s.w.pending).sealed

@[simp] theorem flush_uploadedTo (s : Stream) : (flushPendingLocked s).w.uploadedTo = s.w.uploadedTo := by
  cases h : s.w.pending with
  | nil => rw [flush_nil h]
  | cons first rest => rw [flush_cons h]; exact (wrote_notedAs s.w first s.w.pending).uploadedTo

@[simp] theorem flush_recCount (s : Stream) : (flushPendingLocked s).w.recCount = s.w.recCount + s.w.pending.length := by
  cases h : s.w.pending with
  | nil => rw [flush_nil h]; rfl
  | cons first rest =>
    rw [flush_cons h, ← h]
    exact (wrote_notedAs s.w first s.w.pending).recCount

/-- A flush raises `lastSeq` to the records it writes. -/
theorem flush_lastSeq (s : Stream) : s.w.lastSeq ≤ (flushPendingLocked s).w.lastSeq ∧
    ∀ r ∈ s.w.pending, r.streamSeq ≤ (flushPendingLocked s).w.lastSeq := by
  cases h : s.w.pending with
  | nil => rw [flush_nil h]; exact ⟨le_rfl, by simp⟩
  | cons first rest =>
    have hn := wrote_notedAs s.w first s.w.pending
    rw [flush_cons h, ← h]
    exact ⟨hn.lastSeq_le, hn.seq_le⟩

/-- The records that are not sealed yet: those of the open file and the queue. -/
def Stream.unsealed (s : Stream) : List LogRecord :=
  s.dir.records (.opened s.w.openFrom) ++ s.w.pending

/-- A writer in use has at most one open file, the one it writes to. -/
structure OpenFile (s : Stream) : Prop where
  live : s.w.evicted = false
  opened_mem : ∀ f, StreamFileName.opened f ∈ s.dir → f = s.w.openFrom ∧ s.w.recCount ≠ 0
  open_ne_zero : s.w.recCount ≠ 0 → s.w.openFrom ≠ 0

namespace OpenFile

variable {s : Stream} (ho : OpenFile s)
include ho

theorem records_flushFrom (first : LogRecord) :
    s.dir.records (.opened (s.w.flushFrom first)) = s.dir.records (.opened s.w.openFrom) := by
  unfold StreamWriter.flushFrom
  by_cases h0 : s.w.recCount = 0
  · have hnone (f) : s.dir.records (.opened f) = [] :=
      Files.records_eq_nil fun hf => (ho.opened_mem f hf).2 h0
    rw [hnone, hnone]
  · rw [if_neg h0, if_neg (ho.open_ne_zero h0)]

/-- After a flush the open file holds everything that is not sealed. -/
theorem records_flush : (flushPendingLocked s).dir.records (.opened (flushPendingLocked s).w.openFrom) = s.unsealed := by
  cases hp : s.w.pending with
  | nil => rw [flush_nil hp, Stream.unsealed, hp, append_nil]
  | cons first rest =>
    rw [flush_cons hp]
    simp only [(wrote_notedAs s.w first s.w.pending).openFrom, Files.records_insert, if_true,
      ho.records_flushFrom, Stream.unsealed]

theorem unsealed_flush : (flushPendingLocked s).unsealed = s.unsealed := by
  rw [Stream.unsealed, ho.records_flush, flush_pending, append_nil]

theorem flush (hpos : ∀ r ∈ s.w.pending, 0 < r.streamSeq) : OpenFile (flushPendingLocked s) := by
  cases hp : s.w.pending with
  | nil => rwa [flush_nil hp]
  | cons first rest =>
    have hn := wrote_notedAs s.w first s.w.pending
    rw [flush_cons hp]
    refine ⟨?_, ?_, ?_⟩
    · exact hn.evicted.trans ho.live
    · intro f hf
      have hfrom : (s.w.wrote first s.w.pending).openFrom = s.w.flushFrom first := hn.openFrom
      have hcount : (s.w.wrote first s.w.pending).recCount ≠ 0 := by rw [hn.recCount, hp]; simp
      rcases Files.mem_of_mem_insert hf with hf | hf
      · exact ⟨(StreamFileName.opened.inj hf).trans hfrom.symm, hcount⟩
      -- a file that was open before is the one written to
      obtain ⟨rfl, hc⟩ := ho.opened_mem f hf
      refine ⟨?_, hcount⟩
      rw [hfrom, StreamWriter.flushFrom, if_neg hc, if_neg (ho.open_ne_zero hc)]
    · intro _
      simp only [hn.openFrom, StreamWriter.flushFrom]
      have hfirst := hpos first (by rw [hp]; exact mem_cons_self)
      split_ifs <;> omega

variable (data : List LogRecord)

theorem not_mem_afterRename (f : Nat) : StreamFileName.opened f ∉ (afterRename data s).dir := by
  intro hf
  rcases Files.mem_of_mem_insert hf with hf | hf
  · simp at hf
  · rw [mem_erase] at hf
    exact hf.1 (by rw [(ho.opened_mem f hf.2).1])

theorem afterRename : OpenFile (afterRename data s) where
  live := ho.live
  opened_mem f hf := absurd hf (ho.not_mem_afterRename data f)
  open_ne_zero h := absurd rfl h

/-- Once the open file is sealed only the queue is left. -/
theorem unsealed_afterRename : (Buffer.afterRename data s).unsealed = s.w.pending := by
  rw [Stream.unsealed, Files.records_eq_nil (ho.not_mem_afterRename data _)]
  rfl

end OpenFile

/-- An upload either changes nothing or stores the file of an entry without a key. -/
theorem uploadAt_cases (putOk : Bool) (i : Nat) (s : Stream) :
    uploadAt putOk i s = s ∨
    ∃ m path data, putOk = true ∧ s.w.sealed[i]? = some m ∧ m.key = none ∧ m.path = some path ∧
      s.dir.lookup path = some data ∧
      uploadAt putOk i s = (afterPut m data s).setMeta i { m with key := some m.name } := by
  unfold uploadAt
  cases hm : s.w.sealed[i]? with
  | none => exact .inl rfl
  | some m =>
    have hset : s.setMeta i m = s := by
      obtain ⟨hi, rfl⟩ := List.getElem?_eq_some_iff.1 hm
      simp only [Stream.setMeta, set_getElem_self]
    simp only [uploadSealedMetaLocked]
    split
    · next path hk hp =>
      split
      · next data hd => exact .inr ⟨m, path, data, rfl, rfl, hk, hp, hd, rfl⟩
      · exact .inl hset
    · exact .inl hset

/-- The upload that `sealLocked` makes of the file it has just renamed. -/
theorem uploadAt_afterRename (data : List LogRecord) (s : Stream) :
    uploadAt true s.w.sealed.length (afterRename data s) =
      (afterPut (sealedMeta s.w) data (afterRename data s)).setMeta s.w.sealed.length
        { sealedMeta s.w with key := some (sealedMeta s.w).name } := by
  simp [uploadAt, afterRename, uploadSealedMetaLocked, sealedMeta, StreamMeta.name]

theorem renameOpen_cases (s : Stream) :
    renameOpen s = none ∨
    ∃ data, s.w.recCount ≠ 0 ∧ s.w.openFrom ≠ 0 ∧
      s.dir.lookup (.opened s.w.openFrom) = some data ∧ renameOpen s = some (afterRename data s) := by
  unfold renameOpen
  split
  · exact .inl rfl
  · next hidle =>
    rw [not_or] at hidle
    split
    · exact .inl rfl
    · next data hd => exact .inr ⟨data, hidle.1, hidle.2, hd, rfl⟩

theorem sealLocked_none {putOk : Bool} (h : renameOpen (flushPendingLocked s) = none) :
    sealLocked putOk s = flushPendingLocked s := by
  simp only [sealLocked, h]

theorem sealLocked_some {putOk : Bool} {s' : Stream}
    (h : renameOpen (flushPendingLocked s) = some s') :
    sealLocked putOk s = uploadAt putOk (flushPendingLocked s).w.sealed.length s' := by
  simp only [sealLocked, h]

end InClusterStorage.Wal.Buffer
