import Mathlib.Data.List.Dedup
import InClusterStorage.Wal.Buffer.FlushPipeline

/- A restart of the buffer (`NewServer`), with every call of the backend
   succeeding. The process is gone; the bucket is as it was, and the data directory
   is either kept or lost.

   `NewServer` rebuilds the watermarks of the streams from the aggregated segments
   that are still in the bucket (those that `coverage.json` calls covered are not
   even read) and from the local log. The sealed objects of a stream count only
   when a client attaches and the stream was found in neither. -/
namespace InClusterStorage.Wal.Buffer

open List Option Server

/-- What a restart finds: the bucket, and the data directory if it is kept. -/
def Server.crash (keep : Bool) (s : Server) : Server :=
  { store :=
      { s.store with
        streams := fun id =>
          { dir := if keep ∧ id ∈ s.streamDirs then (s.store.streams id).dir else ∅
            objects := (s.store.streams id).objects }
        writers := []
        segmentReqs := ∅ }
    log := if keep then s.log else []
    coverage := if keep then s.coverage else 0
    streamDirs := if keep then s.streamDirs else [] }

/-! `NewServer`, up to the first flush. -/

def segmentPathLe (a b : SegmentPath) : Bool :=
  a.firstPos < b.firstPos || (a.firstPos == b.firstPos && a.lastPos ≤ b.lastPos)

/-- The segments in the bucket, by start position (`ListSegmentsFromBackend`). -/
def Server.listSegments (s : Server) : List SegmentPath :=
  s.store.segments.keys.insertionSort fun a b => segmentPathLe a b = true

/-- The highest last position of a segment in the bucket. -/
def Server.lastFlushedPos (s : Server) : Nat :=
  s.listSegments.foldl (fun m p => if p.lastPos > m then p.lastPos else m) 0

/-- The segments that are read: all but those that `coverage.json` covers. -/
def Server.readSegments (s : Server) : List SegmentPath :=
  s.listSegments.filter fun p => ¬ (s.coverage > 0 ∧ p.lastPos ≤ s.coverage)

def Server.readSegment (s : Server) (p : SegmentPath) : List LogRecord :=
  (s.store.segments.lookup p).getD []

/-- The records of the segments that are read. -/
def Server.readRecords (s : Server) : List LogRecord := s.readSegments.flatMap s.readSegment

/-- The local records that are in no segment. -/
def Server.localTail (s : Server) : List LogRecord :=
  s.log.filter fun r => r.position > s.lastFlushedPos

/-- The watermarks of a stream from the segments and the local log; none where
neither has the stream. -/
def Server.recoveredState (s : Server) (id : UUID) : Option StreamState :=
  match (streamMax s.readRecords).lookup id, (streamMax s.log).lookup id with
  | none, none => none
  | backend, ownLog =>
    let fHead := backend.getD 0
    let lHead := ownLog.getD 0
    some { witnessSeq := if fHead > lHead then fHead else lHead, s3Seq := fHead }

/-- The streams that are recovered: those with a directory or a record. -/
def Server.recoveredIds (s : Server) : List UUID :=
  (s.streamDirs ++ (s.readRecords ++ s.log).map LogRecord.streamID).dedup

/-- The per-stream store after `TrackSegmentCoverage` of the segments and `Recover`. -/
def Server.recoveredStore (s : Server) : StreamStore :=
  { s.store with
    streams := fun id =>
      if id ∈ s.recoveredIds
      then recoverStream true (fun _ => true) id (s.readRecords ++ s.log) (s.store.streams id)
      else s.store.streams id
    writers := s.recoveredIds
    segmentReqs := s.readSegments.foldl (fun m p => m.insert p (streamMax (s.readSegment p))) ∅ }

/-- The server before its first flush. -/
def Server.recovered (s : Server) : Server :=
  { store := s.recoveredStore
    lastPosition := s.log.foldl (fun m r => if r.position > m then r.position else m) s.lastFlushedPos
    lastFlushedPosition := s.lastFlushedPos
    flushedSegments := s.listSegments
    streams := s.recoveredState
    unflushedRecords := s.localTail
    log := s.log
    coverage := s.coverage
    streamDirs := s.recoveredIds.filter fun id => ¬ (s.recoveredStore.streams id).dir.keys.isEmpty
    committed := s.readRecords ++ s.localTail
    uploaded := s.readSegments.map s.readSegment }

/-- `flushInternal` when nothing else runs; `n` records of the local log are trimmed. -/
def Server.flushAlone (n : Nat) (s : Server) : Option Server :=
  let stored := { s with unflushedRecords := [] }.putSegment s.unflushedRecords
  let marked := stored.markFlushed s.unflushedRecords
  ((marked.trackSegmentCoverage s.unflushedRecords).checkAggregatedSegmentGC fun _ => true).deleteSegmentsThrough n

/-- Recover, flush the local-only tail, and collect the covered segments. -/
def Server.newServer (n : Nat) (s : Server) : Option Server :=
  let s := s.recovered
  (if s.unflushedRecords = [] then some s else s.flushAlone n).map (·.checkAggregatedSegmentGC fun _ => true)

def Server.restart (keep : Bool) (n : Nat) (s : Server) : Option Server :=
  (s.crash keep).newServer n

inductive BufferEvent where
  | server (e : ServerEvent)
  | restart (keep : Bool) (n : Nat)

/-- A step of the buffer over all its incarnations; the process may stop anywhere. -/
def Server.bufferStep (s : Server) : BufferEvent → Option Server
  | .server e => s.step e
  | .restart keep n => s.restart keep n

variable {s f : Server} {id : UUID} {n : Nat}

/-! The highest sequence number of a stream. -/

/-- `n` is the highest sequence number that the stream has among the records, zero
where it has none. -/
def MaxSeq (records : List LogRecord) (id : UUID) (n : Nat) : Prop :=
  (∀ r ∈ records, r.streamID = id → r.streamSeq ≤ n) ∧ (n = 0 ∨ ∃ r ∈ records, r.streamID = id ∧ r.streamSeq = n)

theorem maxSeq_streamMax (records : List LogRecord) (id : UUID) :
    MaxSeq records id (((streamMax records).lookup id).getD 0) := by
  constructor
  · rintro r hr rfl
    rcases Nat.eq_zero_or_pos r.streamSeq with h0 | hpos
    · omega
    · obtain ⟨n, hn, hle⟩ := le_streamMax hr hpos
      rwa [hn, getD_some]
  · cases hl : (streamMax records).lookup id with
    | none => exact .inl rfl
    | some n => exact .inr (mem_of_streamMax hl).2

/-- The larger of two highest numbers is the highest of both lists. -/
theorem MaxSeq.append {a b : List LogRecord} {m : Nat} (ha : MaxSeq a id m)
    (hb : MaxSeq b id n) : MaxSeq (a ++ b) id (if n > m then n else m) := by
  constructor
  · intro r hr hid
    rcases mem_append.1 hr with hr | hr
    · have := ha.1 r hr hid
      split <;> omega
    · have := hb.1 r hr hid
      split <;> omega
  · split
    · exact hb.2.imp_right fun ⟨r, hr, h⟩ => ⟨r, mem_append_right _ hr, h⟩
    · exact ha.2.imp_right fun ⟨r, hr, h⟩ => ⟨r, mem_append_left _ hr, h⟩

theorem MaxSeq.le {a b : List LogRecord} {m : Nat} (ha : MaxSeq a id m)
    (hb : MaxSeq b id n) (hsub : ∀ r ∈ a, r ∈ b) : m ≤ n := by
  rcases ha.2 with h0 | ⟨r, hr, hid, hseq⟩
  · omega
  · exact hseq ▸ hb.1 r (hsub r hr) hid

/-- A stream is missing from `streamMax` when it has no record of a positive number. -/
theorem lookup_streamMax_eq_none {records : List LogRecord} :
    (streamMax records).lookup id = none ↔ ∀ r ∈ records, r.streamID = id → r.streamSeq = 0 := by
  constructor
  · rintro h r hr rfl
    by_contra hne
    obtain ⟨n, hn, -⟩ := le_streamMax hr (pos_of_ne_zero hne)
    rw [h] at hn
    simp at hn
  · intro h
    cases hl : (streamMax records).lookup id with
    | none => rfl
    | some n =>
      obtain ⟨hpos, r, hr, hid, hseq⟩ := mem_of_streamMax hl
      have := h r hr hid
      omega

/-! What a restart does to the bucket and to the watermarks. -/

/-- Nothing runs, and a stream without a directory has no files. -/
def Server.Found (s : Server) : Prop :=
  ∀ id, (s.store.streams id).w = {} ∧ (id ∉ s.streamDirs → (s.store.streams id).dir = ∅)

theorem Server.crash_found (keep : Bool) (s : Server) : (s.crash keep).Found := by
  intro id
  refine ⟨rfl, fun hid => ?_⟩
  cases keep with
  | false => simp [crash]
  | true =>
    have : id ∉ s.streamDirs := by simpa [crash] using hid
    simp [crash, this]

theorem lookup_of_gc {delOk : SegmentPath → Bool} {p : SegmentPath} {records : List LogRecord}
    (h : (s.checkAggregatedSegmentGC delOk).store.segments.lookup p = some records) :
    s.store.segments.lookup p = some records := by
  simp only [checkAggregatedSegmentGC, StreamStore.checkSegmentGC, lookup_foldl_erase] at h
  split at h
  · simp at h
  · exact h

theorem deleteSegmentsThrough_spec {s' : Server}
    (h : s.deleteSegmentsThrough n = some s') : s'.store = s.store ∧ s'.streams = s.streams := by
  unfold deleteSegmentsThrough at h
  split at h
  · cases h; exact ⟨rfl, rfl⟩
  · simp at h

theorem flushAlone_spec {s' : Server} (h : s.flushAlone n = some s') :
    s'.streams = raiseS3 s.unflushedRecords s.streams ∧ s'.store.streams = s.store.streams ∧
    ∀ p records, s'.store.segments.lookup p = some records →
      s.store.segments.lookup p = some records ∨ records = s.unflushedRecords := by
  obtain ⟨hstore, hstreams⟩ := deleteSegmentsThrough_spec h
  rw [hstore, hstreams]
  refine ⟨rfl, rfl, fun p records hl => ?_⟩
  have hput := lookup_of_gc hl
  simp only [trackSegmentCoverage, markFlushed, putSegment,
    StreamStore.trackSegmentCoverage, StreamStore.putSegment] at hput
  by_cases hp : p = segPath s.unflushedRecords
  · rw [hp, AList.lookup_insert, some.injEq] at hput
    exact .inr hput.symm
  · rw [AList.lookup_insert_ne hp] at hput
    exact .inl hput

theorem raiseS3_nil (streams : UUID → Option StreamState) : raiseS3 [] streams = streams := by
  funext id
  simp only [raiseS3]
  split
  · next h => simp [streamMax] at h
  · rfl

/-- The watermarks, the per-stream files and the segments after `NewServer`. -/
theorem newServer_spec (h : f.newServer n = some s) :
    s.streams = raiseS3 f.localTail f.recoveredState ∧
    s.store.streams = f.recoveredStore.streams ∧
    ∀ p records, s.store.segments.lookup p = some records →
      f.store.segments.lookup p = some records ∨ records = f.localTail := by
  simp only [newServer, map_eq_some_iff] at h
  obtain ⟨s₁, h₁, rfl⟩ := h
  have hgc (p records) : (s₁.checkAggregatedSegmentGC fun _ => true).store.segments.lookup p =
      some records → s₁.store.segments.lookup p = some records := lookup_of_gc
  split at h₁
  · next hnil =>
    cases h₁
    have hnil : f.localTail = [] := hnil
    refine ⟨?_, rfl, fun p records hl => .inl (hgc p records hl)⟩
    rw [hnil, raiseS3_nil]
    rfl
  · obtain ⟨hstreams, hfiles, hsegs⟩ := flushAlone_spec h₁
    exact ⟨hstreams, hfiles, fun p records hl => hsegs p records (hgc p records hl)⟩

/-- The stream has a record in a segment that is read or in the local log. -/
def Server.Logged (f : Server) (id : UUID) : Prop :=
  ∃ r ∈ f.readRecords ++ f.log, r.streamID = id ∧ 0 < r.streamSeq

instance (f : Server) (id : UUID) : Decidable (f.Logged id) :=
  inferInstanceAs (Decidable (∃ r ∈ f.readRecords ++ f.log, _))

/-- The records that count for the `s3Seq` of a logged stream. -/
def Server.counted (f : Server) : List LogRecord := f.readRecords ++ f.localTail

/-- A logged stream gets its `s3Seq` from the counted records, and its witness
watermark is not lower. -/
theorem newServer_logged (h : f.newServer n = some s)
    (hid : f.Logged id) : ∃ st, s.streams id = some st ∧ MaxSeq f.counted id st.s3Seq ∧ st.s3Seq ≤ st.witnessSeq := by
  have hf := maxSeq_streamMax f.readRecords id
  have hl := maxSeq_streamMax f.log id
  have htail := maxSeq_streamMax f.localTail id
  have hwit := hl.append hf
  have hs3 := hf.append htail
  have hle := hs3.le hwit (b := f.log ++ f.readRecords) fun r hr => by
    rcases mem_append.1 hr with hr | hr
    · exact mem_append_right _ hr
    · exact mem_append_left _ (mem_of_mem_filter hr)
  have hstate : f.recoveredState id = some
      { witnessSeq :=
          if ((streamMax f.readRecords).lookup id).getD 0 > ((streamMax f.log).lookup id).getD 0
          then ((streamMax f.readRecords).lookup id).getD 0 else ((streamMax f.log).lookup id).getD 0
        s3Seq := ((streamMax f.readRecords).lookup id).getD 0 } := by
    simp only [recoveredState]
    split
    · next hb hlog =>
      obtain ⟨r, hr, hrid, hpos⟩ := hid
      rw [lookup_streamMax_eq_none] at hb hlog
      rcases mem_append.1 hr with hr | hr
      · have := hb r hr hrid; omega
      · have := hlog r hr hrid; omega
    · rfl
  rw [(newServer_spec h).1]
  simp only [raiseS3, hstate]
  cases hmax : (streamMax f.localTail).lookup id with
  | none =>
    rw [hmax, getD_none, if_neg (Nat.not_lt_zero _)] at hs3 hle
    exact ⟨_, rfl, hs3, hle⟩
  | some m =>
    rw [hmax, getD_some] at hs3 hle
    exact ⟨_, rfl, hs3, hle⟩

theorem newServer_not_logged (h : f.newServer n = some s) (hid : ¬ f.Logged id) : s.streams id = none := by
  have hnone (records) (hsub : ∀ r ∈ records, r ∈ f.readRecords ++ f.log) : (streamMax records).lookup id = none := by
    rw [lookup_streamMax_eq_none]
    intro r hr hrid
    by_contra hne
    exact hid ⟨r, hsub r hr, hrid, pos_of_ne_zero hne⟩
  rw [(newServer_spec h).1]
  simp only [raiseS3, recoveredState,
    hnone f.readRecords fun r hr => mem_append_left _ hr,
    hnone f.log fun r hr => mem_append_right _ hr]

end InClusterStorage.Wal.Buffer
