import InClusterStorage.Lib.Runs
import InClusterStorage.Wal.Buffer.StreamLocation

/- Garbage collection of the aggregated segments (`StreamStore` in
   `stream_store.go`). The buffer uploads its log twice: as aggregated segments
   that mix the streams, and as sealed files of one stream each. For every
   aggregated segment `TrackSegmentCoverage` remembers the highest sequence
   number of each stream in it, and `CheckSegmentGC` deletes the segment once
   every one of these streams has uploaded a sealed file that ends there or
   later.

   The writers of all streams run here with the calls of the store in any order.
   Each `PutObject`, listing and deletion succeeds or fails as the event says.
   The buckets may hold sealed objects of earlier incarnations, the writers are
   new. `committed` is what `AppendRecords` was given and `segments` the content of the
   aggregated objects; the store reads neither. A segment is tracked only after
   its records were given to `AppendRecords`, as `commitItems` and `doFlush` do,
   and sequence numbers start at one, as the receive loop of `Append` ensures.

   One high-water mark is not enough. `gc_safe` proves what deletion needs:
   appends above what is sealed (or repeats of it), seals that drop nothing of a
   file they replace, and uploads that succeed in the order of the files. -/
namespace InClusterStorage.Wal.Buffer

open List AList Runs

/-- The key of an aggregated segment, parsed (`ParseSegmentPath`). -/
structure SegmentPath where
  firstPos : Nat
  lastPos : Nat
  deriving DecidableEq, Repr

/-- The highest sequence number of each stream. -/
abbrev StreamMax := AList fun _ : UUID => Nat

structure StreamStore where
  streams : UUID → Stream
  /-- the streams that have a `streamWriter` in the map -/
  writers : List UUID
  segmentReqs : AList fun _ : SegmentPath => StreamMax
  segments : AList fun _ : SegmentPath => List LogRecord
  committed : UUID → List Nat

variable (s : StreamStore)

/-- Run `f` on the writer of a stream, made first where there is none. -/
def StreamStore.update (id : UUID) (f : Stream → Stream) : StreamStore :=
  { s with streams := Function.update s.streams id (f (s.streams id)), writers := s.writers.insert id }

/-- Enqueue the records of each stream. -/
def StreamStore.appendRecords (records : List LogRecord) : StreamStore :=
  { s with
    streams := fun id => (Buffer.appendRecords (records.filter (·.streamID = id)) (s.streams id)).1
    writers := (records.map LogRecord.streamID).foldl (fun ws id => ws.insert id) s.writers
    committed := fun id => s.committed id ++ seqs (records.filter (·.streamID = id)) }

/-- One record in the loop of `TrackSegmentCoverage`. -/
def noteMax (reqs : StreamMax) (rec : LogRecord) : StreamMax :=
  if rec.streamSeq > (reqs.lookup rec.streamID).getD 0
  then reqs.insert rec.streamID rec.streamSeq else reqs

/-- The highest sequence number of each stream among the records. -/
def streamMax (records : List LogRecord) : StreamMax := records.foldl noteMax ∅

/-- The `PutObject` of an aggregated segment. -/
def StreamStore.putSegment (path : SegmentPath) (records : List LogRecord) : StreamStore :=
  { s with segments := s.segments.insert path records }

def StreamStore.trackSegmentCoverage (path : SegmentPath) (records : List LogRecord) : StreamStore :=
  { s with segmentReqs := s.segmentReqs.insert path (streamMax records) }

/-- Every stream has a writer that has uploaded as far as required. -/
def StreamStore.allCovered (reqs : StreamMax) : Bool :=
  reqs.entries.all fun r =>
    decide (r.1 ∈ s.writers) && (s.streams r.1).w.discovered && !decide ((s.streams r.1).w.uploadedTo < r.2)

/-- Delete the covered segments and return their keys; `delOk` says which
deletions succeed. -/
def StreamStore.checkSegmentGC (delOk : SegmentPath → Bool) (s : StreamStore) : StreamStore × List SegmentPath :=
  let deleted := (s.segmentReqs.entries.filter fun seg =>
    s.allCovered seg.2 && !seg.2.entries.isEmpty && delOk seg.1).map Sigma.fst
  ({ s with
      segmentReqs := deleted.foldl (fun m path => m.erase path) s.segmentReqs
      segments := deleted.foldl (fun m path => m.erase path) s.segments }, deleted)

inductive StoreEvent where
  | append (records : List LogRecord)
  | flush (id : UUID)
  | sealFile (id : UUID) (putOk : Bool)
  | upload (id : UUID) (i : Nat) (putOk : Bool)
  | discover (id : UUID) (listOk : Bool)
  | track (path : SegmentPath) (records : List LogRecord)
  | gc (delOk : SegmentPath → Bool)

def StreamStore.step : StoreEvent → Option StreamStore
  | .append records =>
    if ∀ r ∈ records, 0 < r.streamSeq then some (s.appendRecords records) else none
  | .flush id => some (s.update id flushPendingLocked)
  | .sealFile id putOk => some (s.update id (sealLocked putOk))
  | .upload id i putOk => some (s.update id (uploadAt putOk i))
  | .discover id listOk => some (s.update id (discoverRemoteSealedLocked listOk))
  | .track path records =>
    if ∀ r ∈ records, r.streamSeq ∈ s.committed r.streamID
    then some ((s.putSegment path records).trackSegmentCoverage path records) else none
  | .gc delOk => some (s.checkSegmentGC delOk).1

/-- A store just made: new writers over empty directories, and whatever sealed
objects earlier incarnations left. -/
def StreamStore.IsNew : Prop :=
  (∀ id, s.streams id = { objects := (s.streams id).objects }) ∧ s.segmentReqs = ∅ ∧ ∀ id, s.committed id = []

def StreamStore.InOrder : StoreEvent → Prop
  | .append records => ∀ r ∈ records, AppendsAbove (s.streams r.streamID) r
  | .sealFile id putOk => SealsInOrder putOk (s.streams id)
  | .upload id i putOk => UploadsAtInOrder putOk i (s.streams id)
  | _ => True

instance (s : StreamStore) : ∀ e, Decidable (s.InOrder e)
  | .append records =>
    inferInstanceAs (Decidable (∀ r ∈ records, AppendsAbove (s.streams r.streamID) r))
  | .flush _ => inferInstanceAs (Decidable True)
  | .sealFile _ _ => inferInstanceAs (Decidable (SealsInOrder _ _))
  | .upload _ _ _ => inferInstanceAs (Decidable (UploadsAtInOrder _ _ _))
  | .discover _ _ => inferInstanceAs (Decidable True)
  | .track _ _ => inferInstanceAs (Decidable True)
  | .gc _ => inferInstanceAs (Decidable True)

theorem le_lookup_noteMax {reqs : StreamMax} {id : UUID} {n : Nat} (h : reqs.lookup id = some n)
    (rec : LogRecord) : ∃ n', (noteMax reqs rec).lookup id = some n' ∧ n ≤ n' := by
  unfold noteMax
  split
  · next hgt =>
    by_cases hid : id = rec.streamID
    · subst hid
      rw [h, Option.getD_some] at hgt
      exact ⟨rec.streamSeq, lookup_insert _, by omega⟩
    · exact ⟨n, by rw [lookup_insert_ne hid, h], le_rfl⟩
  · exact ⟨n, h, le_rfl⟩

theorem lookup_noteMax_self (reqs : StreamMax) {rec : LogRecord} (hpos : 0 < rec.streamSeq) :
    ∃ n, (noteMax reqs rec).lookup rec.streamID = some n ∧ rec.streamSeq ≤ n := by
  unfold noteMax
  split
  · exact ⟨rec.streamSeq, lookup_insert _, le_rfl⟩
  · next hle =>
    cases h : reqs.lookup rec.streamID with
    | none => rw [h] at hle; simp at hle; omega
    | some n =>
      rw [h, Option.getD_some] at hle
      exact ⟨n, rfl, by omega⟩

theorem le_lookup_foldl_noteMax (records : List LogRecord) :
    ∀ {reqs : StreamMax} {id : UUID} {n : Nat}, reqs.lookup id = some n →
      ∃ n', (records.foldl noteMax reqs).lookup id = some n' ∧ n ≤ n' := by
  induction records with
  | nil => intro reqs id n h; exact ⟨n, h, le_rfl⟩
  | cons rec rest ih =>
    intro reqs id n h
    obtain ⟨n', h', hle⟩ := le_lookup_noteMax h rec
    obtain ⟨n'', h'', hle'⟩ := ih h'
    exact ⟨n'', h'', hle.trans hle'⟩

/-- `streamMax` bounds every record of a positive sequence number. -/
theorem le_streamMax {records : List LogRecord} {r : LogRecord} (hr : r ∈ records)
    (hpos : 0 < r.streamSeq) : ∃ n, (streamMax records).lookup r.streamID = some n ∧ r.streamSeq ≤ n := by
  obtain ⟨front, back, rfl⟩ := append_of_mem hr
  rw [streamMax, foldl_append, foldl_cons]
  obtain ⟨n, hn, hle⟩ := lookup_noteMax_self (front.foldl noteMax ∅) hpos
  obtain ⟨n', hn', hle'⟩ := le_lookup_foldl_noteMax back hn
  exact ⟨n', hn', hle.trans hle'⟩

theorem mem_of_foldl_noteMax (records : List LogRecord) :
    ∀ {reqs : StreamMax} {id : UUID} {n : Nat}, (records.foldl noteMax reqs).lookup id = some n →
      reqs.lookup id = some n ∨ 0 < n ∧ ∃ r ∈ records, r.streamID = id ∧ r.streamSeq = n := by
  induction records with
  | nil => intro reqs id n h; exact .inl h
  | cons rec rest ih =>
    intro reqs id n h
    rcases ih h with h | ⟨hpos, r, hr, hid, hn⟩
    · unfold noteMax at h
      split at h
      · next hgt =>
        by_cases hid : id = rec.streamID
        · subst hid
          rw [lookup_insert, Option.some.injEq] at h
          exact .inr ⟨by omega, rec, mem_cons_self, rfl, h⟩
        · rw [lookup_insert_ne hid] at h
          exact .inl h
      · exact .inl h
    · exact .inr ⟨hpos, r, mem_cons_of_mem _ hr, hid, hn⟩

theorem mem_of_streamMax {records : List LogRecord} {id : UUID} {n : Nat}
    (h : (streamMax records).lookup id = some n) : 0 < n ∧ ∃ r ∈ records, r.streamID = id ∧ r.streamSeq = n :=
  (mem_of_foldl_noteMax records h).resolve_left (by simp)

theorem lookup_foldl_erase {V : Type*} (paths : List SegmentPath) :
    ∀ (m : AList fun _ : SegmentPath => V) (path : SegmentPath),
      (paths.foldl (fun m p => m.erase p) m).lookup path = if path ∈ paths then none else m.lookup path := by
  induction paths with
  | nil => intro m path; simp
  | cons p rest ih =>
    intro m path
    rw [foldl_cons, ih]
    by_cases hp : path = p
    · subst hp; simp
    · simp [hp, lookup_erase_ne hp]

/-- A deleted segment was tracked and all its streams were covered. -/
theorem covered_of_deleted {s : StreamStore} {delOk : SegmentPath → Bool} {path : SegmentPath}
    (h : path ∈ (s.checkSegmentGC delOk).2) :
    ∃ reqs, s.segmentReqs.lookup path = some reqs ∧
      ∀ id n, reqs.lookup id = some n → (s.streams id).w.discovered = true ∧ n ≤ (s.streams id).w.uploadedTo := by
  obtain ⟨⟨p, reqs⟩, hmem, rfl⟩ := mem_map.1 h
  obtain ⟨hin, hcov⟩ := mem_filter.1 hmem
  refine ⟨reqs, mem_lookup_iff.2 hin, fun id n hn => ?_⟩
  simp only [Bool.and_eq_true, StreamStore.allCovered, all_eq_true] at hcov
  have := hcov.1.1 ⟨id, n⟩ (mem_lookup_iff.1 hn)
  simp only [Bool.not_eq_true', decide_eq_false_iff_not, not_lt] at this
  exact ⟨this.1.2, this.2⟩

/-- Each stream keeps its invariant, and a tracked segment holds committed records
only, with the right requirements. -/
structure StoreInv (s : StreamStore) : Prop where
  stream : ∀ id, StreamInv (s.streams id) (s.committed id)
  tracked : ∀ path reqs, s.segmentReqs.lookup path = some reqs →
    ∃ records, s.segments.lookup path = some records ∧ reqs = streamMax records ∧
      ∀ r ∈ records, r.streamSeq ∈ s.committed r.streamID

theorem storeInv_update {s : StreamStore} (hi : StoreInv s) {id : UUID} {f : Stream → Stream}
    (hf : StreamInv (s.streams id) (s.committed id) → StreamInv (f (s.streams id)) (s.committed id)) :
    StoreInv (s.update id f) := by
  refine ⟨fun id' => ?_, hi.tracked⟩
  by_cases h : id' = id
  · subst h
    simpa [StreamStore.update] using hf (hi.stream id')
  · simpa [StreamStore.update, h] using hi.stream id'

theorem storeInv_step (e : StoreEvent) (s' : StreamStore) (hi : StoreInv s)
    (hok : s.InOrder e) (hs : s.step e = some s') : StoreInv s' := by
  cases e with simp only [StreamStore.step] at hs
  | append records =>
    split at hs
    · next hpos =>
      cases hs
      refine ⟨fun id => ?_, ?_⟩
      · refine streamInv_append (hi.stream id) (fun r hr => hpos r (mem_of_mem_filter hr)) ?_
        intro r hr
        obtain ⟨hr, hid⟩ := mem_filter.1 hr
        have := hok r hr
        rwa [of_decide_eq_true hid] at this
      · intro path reqs h
        obtain ⟨recs, hseg, hreqs, hcom⟩ := hi.tracked path reqs h
        exact ⟨recs, hseg, hreqs, fun r hr => mem_append_left _ (hcom r hr)⟩
    · simp at hs
  | flush id => cases hs; exact storeInv_update hi streamInv_flush
  | sealFile id putOk => cases hs; exact storeInv_update hi fun h => streamInv_seal h hok
  | upload id i putOk => cases hs; exact storeInv_update hi fun h => streamInv_uploadAt h hok
  | discover id listOk => cases hs; exact storeInv_update hi fun h => streamInv_discover h listOk
  | track path records =>
    split at hs
    · next hcom =>
      cases hs
      refine ⟨hi.stream, fun path' reqs h => ?_⟩
      simp only [StreamStore.putSegment, StreamStore.trackSegmentCoverage] at h ⊢
      by_cases hp : path' = path
      · subst hp
        rw [lookup_insert] at h
        exact ⟨records, lookup_insert _, (Option.some.inj h).symm, hcom⟩
      · rw [lookup_insert_ne hp] at h ⊢
        exact hi.tracked path' reqs h
    · simp at hs
  | gc delOk =>
    cases hs
    refine ⟨hi.stream, fun path reqs h => ?_⟩
    simp only [StreamStore.checkSegmentGC, lookup_foldl_erase] at h ⊢
    split at h
    · simp at h
    · next hp => rw [if_neg hp]; exact hi.tracked path reqs h

/-- **Segments are deleted only when their records are in object storage.** In
every run from a new store whose appends, seals and uploads are in order, each
segment that `CheckSegmentGC` deletes has every record in a sealed object of its
stream that is present at that moment. -/
theorem gc_safe {s : StreamStore} (h : Reach StreamStore.IsNew StreamStore.step StreamStore.InOrder s)
    (delOk : SegmentPath → Bool) :
    ∀ path ∈ (s.checkSegmentGC delOk).2, ∃ records, s.segments.lookup path = some records ∧
      ∀ r ∈ records, r.streamSeq ∈ ((s.checkSegmentGC delOk).1.streams r.streamID).objects.sealedSeqs := by
  have hi : StoreInv s := by
    refine h.inv ?_ storeInv_step
    rintro s ⟨hnew, hreqs, hcom⟩
    refine ⟨fun id => ?_, ?_⟩
    · rw [hcom id, hnew id]
      exact streamInv_new _
    · intro path reqs h
      simp [hreqs] at h
  intro path hpath
  obtain ⟨reqs, hreqs, hcov⟩ := covered_of_deleted hpath
  obtain ⟨records, hseg, rfl, hcom⟩ := hi.tracked path reqs hreqs
  refine ⟨records, hseg, fun r hr => ?_⟩
  have hinv := hi.stream r.streamID
  have hpos := hinv.committed_pos _ (hcom r hr)
  obtain ⟨n, hn, hle⟩ := le_streamMax hr hpos
  have hup := (hcov _ n hn).2
  have hend := hinv.uploadedTo_end.resolve_left (by omega)
  -- an object ends at or above the record, so the record waits nowhere
  cases hinv.located _ (hcom r hr) with
  | fresh _ habove => exact absurd (habove _ (mem_append_right _ hend)) (by omega)
  | stored hq => exact hq
  | sealedLocally a b _ _ habove _ => exact absurd (habove _ hend) (by omega)

/-- A store over an empty bucket. -/
def StreamStore.empty : StreamStore :=
  { streams := fun _ => {}, writers := [], segmentReqs := ∅, segments := ∅, committed := fun _ => [] }

theorem StreamStore.empty_isNew : StreamStore.empty.IsNew := ⟨fun _ => rfl, rfl, fun _ => rfl⟩

/-- Two streams; the second file of stream 7 repeats a record of the first. -/
def inOrderRun : List StoreEvent :=
  [.discover 7 true, .append [⟨1, 7, 1, []⟩, ⟨2, 8, 1, []⟩, ⟨3, 7, 2, []⟩], .sealFile 7 false,
   .track ⟨1, 3⟩ [⟨1, 7, 1, []⟩, ⟨2, 8, 1, []⟩, ⟨3, 7, 2, []⟩], .upload 7 0 true,
   .append [⟨4, 7, 2, []⟩, ⟨5, 7, 3, []⟩], .sealFile 8 true, .discover 8 true, .sealFile 7 true]

theorem gc_safe_inOrderRun :
    ∃ s : StreamStore, (s.checkSegmentGC fun _ => true).2 = [⟨1, 3⟩] ∧
      ∀ path ∈ (s.checkSegmentGC fun _ => true).2, ∃ records, s.segments.lookup path = some records ∧
        ∀ r ∈ records, r.streamSeq ∈ ((s.checkSegmentGC fun _ => true).1.streams r.streamID).objects.sealedSeqs :=
  ⟨(exec StreamStore.step .empty inOrderRun).get (by decide), by decide,
    gc_safe (Reach.exec (.start StreamStore.empty_isNew) (by decide +kernel) (Option.some_get _).symm) _⟩

/-- The upload of the first file fails, that of the second succeeds. -/
def lateUploadRun : List StoreEvent :=
  [.discover 7 true, .append [⟨1, 7, 1, []⟩], .sealFile 7 false, .append [⟨2, 7, 2, []⟩],
   .upload 7 0 false, .sealFile 7 true, .track ⟨1, 2⟩ [⟨1, 7, 1, []⟩, ⟨2, 7, 2, []⟩]]

/-- The segment is deleted although its first record is in no object: `uploadedTo`
is the end of the second file. -/
theorem gc_deletes_unstored :
    ∃ s, Reach StreamStore.IsNew StreamStore.step always s ∧
      (s.checkSegmentGC fun _ => true).2 = [⟨1, 2⟩] ∧
      s.segments.lookup ⟨1, 2⟩ = some [⟨1, 7, 1, []⟩, ⟨2, 7, 2, []⟩] ∧
      ((s.checkSegmentGC fun _ => true).1.streams 7).objects.sealedSeqs = [2] :=
  ⟨(exec StreamStore.step .empty lateUploadRun).get (by decide),
    Reach.of_exec StreamStore.empty_isNew (Option.some_get _).symm, by decide, by decide,
    by decide⟩

end InClusterStorage.Wal.Buffer
