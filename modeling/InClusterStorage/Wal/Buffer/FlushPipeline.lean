import InClusterStorage.Lib.Exclusive
import InClusterStorage.Wal.Buffer.Server

/- The flush pipeline of one incarnation. Any number of flushers, commits and the
   other work of the buffer are interleaved step by step, and every `PutObject`
   may fail.

   At each moment the committed records are, in the order of their positions,
   those in uploaded segments, then those of the one batch in flight, then the
   queue. A batch that could not be stored goes back in front of the queue, where
   it came from, so both watermarks speak of a prefix of the log:
   `lastFlushedPosition` and the `s3Seq` of every stream are reached only when
   everything before them has been stored.

   A client may attach to a stream that the server knows or that has no sealed
   objects. For another stream `s3Seq` starts at the end of its sealed objects,
   which is a statement about these and not about aggregated segments. -/
namespace InClusterStorage.Wal.Buffer

open Threads List Option Server Runs

/-- The flusher is between taking a batch and clearing `isFlushing`. -/
def FlushPc.Busy : FlushPc → Prop
  | .entry | .done => False
  | _ => True

/-- The records the flusher holds that are in no segment yet. -/
def FlushPc.batch : FlushPc → List LogRecord
  | .putting records | .failed records => records
  | _ => []

theorem FlushPc.batch_of_not_busy (pc : FlushPc) (h : ¬ pc.Busy) : pc.batch = [] := by
  cases pc <;> first | rfl | exact absurd trivial h

def Server.inFlight (s : Server) : List LogRecord := s.flushers.flatMap FlushPc.batch

/-- The records of a batch that is appended but not queued yet. -/
def CommitPc.unqueued : CommitPc → List LogRecord
  | .appended records => records
  | _ => []

def Ascending (records : List LogRecord) : Prop := records.Pairwise fun a b => a.position < b.position

/-- The `s3Seq` of each stream is zero or belongs to a stored record. -/
def StoredMarks (stored : List LogRecord) (streams : UUID → Option StreamState) : Prop :=
  ∀ id st, streams id = some st → st.s3Seq = 0 ∨ ∃ r ∈ stored, r.streamID = id ∧ r.streamSeq = st.s3Seq

/-- A server that has just started: nothing runs yet, and what it has recovered
is stored up to `lastFlushedPosition` and queued from there. -/
structure Server.IsStarted (s : Server) : Prop where
  flushers : s.flushers = []
  committing : s.committing = .idle
  split : s.committed = s.uploaded.flatten ++ s.unflushedRecords
  ascending : Ascending s.committed
  assigned : ∀ r ∈ s.committed, r.position ≤ s.lastPosition
  flushed_le : s.lastFlushedPosition ≤ s.lastPosition
  flushed : ∀ r ∈ s.committed, r.position ≤ s.lastFlushedPosition → r ∈ s.uploaded.flatten
  marks : StoredMarks s.uploaded.flatten s.streams

/-- Clients attach to streams that are known or have no sealed objects. -/
def Server.AttachesFresh (s : Server) : ServerEvent → Prop
  | .hello id listOk => (s.streams id).isSome ∨ (s.getOrCreateStream listOk id).2.s3Seq = 0
  | _ => True

instance (s : Server) : ∀ e, Decidable (s.AttachesFresh e)
  | .hello _ _ => inferInstanceAs (Decidable (_ ∨ _))
  | .commit _ _ | .queue | .publish | .flush | .flusher _ _ _ _ | .flushStream _ | .sealStream _ _
  | .upload _ _ _ | .discover _ _ | .gc _ | .saveCoverage => isTrue trivial

/-- What holds of the pipeline at every moment. -/
structure PipelineInv (s : Server) : Prop where
  exclusive : Exclusive FlushPc.Busy s.isFlushing s.flushers
  split : s.committed = s.uploaded.flatten ++ (s.inFlight ++ s.unflushedRecords)
  ascending : Ascending (s.committed ++ s.committing.unqueued)
  assigned : ∀ r ∈ s.committed ++ s.committing.unqueued, r.position ≤ s.lastPosition
  flushed_le : s.lastFlushedPosition ≤ s.lastPosition
  flushed : ∀ r ∈ s.committed ++ s.committing.unqueued, r.position ≤ s.lastFlushedPosition → r ∈ s.uploaded.flatten
  stored : ∀ records, FlushPc.stored records ∈ s.flushers → ∀ r ∈ records, r ∈ s.uploaded.flatten
  marks : StoredMarks s.uploaded.flatten s.streams

variable {s : Server}

theorem Server.IsStarted.inv (h : s.IsStarted) : PipelineInv s := by
  have hflight : s.inFlight = [] := by rw [inFlight, h.flushers]; rfl
  have hunq : s.committing.unqueued = [] := by rw [h.committing]; rfl
  refine ⟨?_, ?_, ?_, ?_, h.flushed_le, ?_, ?_, h.marks⟩
  · rw [h.flushers]; exact .nil _ _
  · rw [hflight, nil_append]; exact h.split
  · rw [hunq, append_nil]; exact h.ascending
  · rw [hunq, append_nil]; exact h.assigned
  · rw [hunq, append_nil]; exact h.flushed
  · rw [h.flushers]; simp

section

variable (h : PipelineInv s)
include h

/-- What is stored is a prefix of the log: a record at or before a stored one is stored. -/
theorem PipelineInv.stored_of_le {r r' : LogRecord}
    (hr : r ∈ s.uploaded.flatten) (hr' : r' ∈ s.committed ++ s.committing.unqueued)
    (hle : r'.position ≤ r.position) : r' ∈ s.uploaded.flatten := by
  have hasc := h.ascending
  rw [h.split, append_assoc] at hasc hr'
  rcases mem_append.1 hr' with hr' | hr'
  · exact hr'
  · have := (pairwise_append.1 hasc).2.2 r hr r' hr'
    omega

/-! The commit. -/

omit h in
theorem mem_assignPositions {items : List IncomingItem} : ∀ {last : Nat} {r : LogRecord},
    r ∈ assignPositions last items → last < r.position ∧ r.position ≤ last + items.length := by
  induction items with
  | nil => intro last r hr; simp [assignPositions] at hr
  | cons item items ih =>
    intro last r hr
    rcases mem_cons.1 hr with rfl | hr
    · simp
    · have := ih hr
      rw [length_cons]
      omega

omit h in
theorem ascending_assignPositions (items : List IncomingItem) : ∀ last : Nat, Ascending (assignPositions last items) := by
  induction items with
  | nil => intro last; exact List.Pairwise.nil
  | cons item items ih =>
    intro last
    exact List.Pairwise.cons (fun r hr => (mem_assignPositions hr).1) (ih _)

theorem PipelineInv.appendBatch (hidle : s.committing = .idle)
    (items : List IncomingItem) (failed : Option Nat) : PipelineInv (s.appendBatch items failed) := by
  have hunq : s.committing.unqueued = [] := by rw [hidle]; rfl
  have hasc := h.ascending
  have hass := h.assigned
  have hfl := h.flushed
  rw [hunq, append_nil] at hasc hass hfl
  cases failed with
  | none =>
    refine ⟨h.exclusive, h.split, ?_, ?_, ?_, ?_, h.stored, h.marks⟩
    · refine pairwise_append.2 ⟨hasc, ascending_assignPositions items _, fun a ha b hb => ?_⟩
      have := hass a ha
      have := (mem_assignPositions hb).1
      omega
    · intro r hr
      rcases mem_append.1 hr with hr | hr
      · exact (hass r hr).trans (Nat.le_add_right _ _)
      · exact (mem_assignPositions hr).2
    · exact h.flushed_le.trans (Nat.le_add_right _ _)
    · intro r hr hle
      rcases mem_append.1 hr with hr | hr
      · exact hfl r hr hle
      · have hpos := (mem_assignPositions hr).1
        have := h.flushed_le
        simp only [Server.appendBatch] at hle
        omega
  | some n =>
    refine ⟨h.exclusive, h.split, ?_, ?_, ?_, ?_, h.stored, ?_⟩
    · exact h.ascending
    · exact fun r hr => (h.assigned r hr).trans (Nat.le_add_right _ _)
    · exact h.flushed_le.trans (Nat.le_add_right _ _)
    · exact h.flushed
    · intro id st hst
      simp only [Server.appendBatch, commitFailed, map_eq_some_iff] at hst
      obtain ⟨st', hst', rfl⟩ := hst
      have := h.marks id st' hst'
      split <;> exact this

variable {records : List LogRecord}

theorem PipelineInv.queue (hc : s.committing = .appended records) :
    PipelineInv { s with
      unflushedRecords := s.unflushedRecords ++ records
      committed := s.committed ++ records
      committing := .queued records } := by
  have hunq : s.committing.unqueued = records := by rw [hc]; rfl
  have hasc := h.ascending
  have hass := h.assigned
  have hfl := h.flushed
  rw [hunq] at hasc hass hfl
  refine ⟨h.exclusive, ?_, ?_, ?_, h.flushed_le, ?_, h.stored, h.marks⟩
  · simp only [h.split, append_assoc]
    rfl
  · simpa [CommitPc.unqueued] using hasc
  · simpa [CommitPc.unqueued] using hass
  · simpa [CommitPc.unqueued] using hfl

theorem PipelineInv.publish (hc : s.committing = .queued records) :
    PipelineInv { s with streams := Buffer.publish records s.streams, committing := .idle } := by
  have hunq : s.committing.unqueued = CommitPc.idle.unqueued := by rw [hc]; rfl
  refine ⟨h.exclusive, h.split, hunq ▸ h.ascending, hunq ▸ h.assigned, h.flushed_le, hunq ▸ h.flushed, h.stored, ?_⟩
  intro id st hst
  simp only [Buffer.publish] at hst
  split at hst
  · exact h.marks id st hst
  simp only [some.injEq] at hst
  subst hst
  cases hold : s.streams id with
  | none => exact .inl rfl
  | some old => exact h.marks id old hold

/-! The flushers. -/

/-- A step of one flusher moves records between the segments, its batch and the
queue. -/
theorem PipelineInv.advance {t : Nat} {pc pc' : FlushPc}
    {isFlushing : Bool} {unflushedRecords : List LogRecord} {uploaded : List (List LogRecord)}
    (ht : s.flushers[t]? = some pc) (hpc : pc.Busy ∨ s.isFlushing = false) (hflag : pc'.Busy → isFlushing = true)
    (hsplit : s.uploaded.flatten ++ (pc.batch ++ s.unflushedRecords) =
      uploaded.flatten ++ (pc'.batch ++ unflushedRecords)) (hup : ∀ r ∈ s.uploaded.flatten, r ∈ uploaded.flatten)
    (hstored : ∀ records, pc' = .stored records → ∀ r ∈ records, r ∈ uploaded.flatten) :
    PipelineInv { s with isFlushing, unflushedRecords, uploaded, flushers := s.flushers.set t pc' } := by
  obtain ⟨hbefore, hafter⟩ := h.exclusive.flatMap_set ht hpc FlushPc.batch_of_not_busy pc'
  refine ⟨h.exclusive.set ht hpc hflag, ?_, h.ascending, h.assigned, h.flushed_le, ?_, ?_, ?_⟩
  · simp only [inFlight, hafter, ← hsplit]
    rw [h.split, inFlight, hbefore]
  · exact fun r hr hle => hup r (h.flushed r hr hle)
  · intro records hmem r hr
    rcases mem_or_eq_of_mem_set hmem with hmem | heq
    · exact hup r (h.stored records hmem r hr)
    · exact hstored records heq.symm r hr
  · intro id st hst
    exact (h.marks id st hst).imp_right fun ⟨r, hr, hrest⟩ => ⟨r, hup r hr, hrest⟩

theorem PipelineInv.goOn {t : Nat} {pc pc' : FlushPc} (ht : s.flushers[t]? = some pc) (hpc : pc.Busy)
    (hbatch : pc.batch = pc'.batch) (hstored : ∀ records, pc' ≠ .stored records) :
    PipelineInv { s with flushers := s.flushers.set t pc' } :=
  h.advance ht (.inl hpc) (fun _ => h.exclusive.flag t _ ht hpc) (by rw [hbatch]) (fun r hr => hr)
    fun records heq => absurd heq (hstored records)

/-- The rest of the server has no part in the pipeline. -/
theorem PipelineInv.frame (store : StreamStore)
    (flushedSegments : List SegmentPath) (log : List LogRecord) (coverage : Nat)
    (streamDirs : List UUID) : PipelineInv { s with store, flushedSegments, log, coverage, streamDirs } :=
  { h with }

/-- The watermarks after a stored batch: its last position and its highest sequence
numbers belong to stored records, and everything before them is stored too. -/
theorem PipelineInv.markFlushed (hstored : ∀ r ∈ records, r ∈ s.uploaded.flatten) :
    PipelineInv (s.markFlushed records) := by
  have hlast : (segPath records).lastPos = 0 ∨ ∃ r ∈ s.uploaded.flatten, r.position = (segPath records).lastPos := by
    cases hl : records.getLast? with
    | none => exact .inl (by simp [segPath, hl])
    | some r => exact .inr ⟨r, hstored r (mem_of_getLast? hl), by simp [segPath, hl]⟩
  refine { h with flushed_le := ?_, flushed := ?_, marks := ?_ }
  · simp only [Server.markFlushed]
    split
    · next hgt =>
      obtain ⟨r, hr, hpos⟩ := hlast.resolve_left (by omega)
      rw [← hpos]
      exact h.assigned r (mem_append_left _ (h.split ▸ mem_append_left _ hr))
    · exact h.flushed_le
  · intro r' hr' hle
    simp only [Server.markFlushed] at hle
    split at hle
    · next hgt =>
      obtain ⟨r, hr, hpos⟩ := hlast.resolve_left (by omega)
      exact h.stored_of_le hr hr' (by omega)
    · exact h.flushed r' hr' hle
  · intro id st hst
    simp only [Server.markFlushed, raiseS3] at hst
    split at hst
    · next old maxSeq hold hmax =>
      simp only [some.injEq] at hst
      subst hst
      split
      · obtain ⟨-, r, hr, hid, hseq⟩ := mem_of_streamMax hmax
        exact .inr ⟨r, hstored r hr, hid, hseq⟩
      · exact h.marks id old hold
    · exact h.marks id st hst

theorem PipelineInv.stepFlusher {s' : Server} {t : Nat} {ok : Bool}
    {delOk : SegmentPath → Bool} {n : Nat} (hs : s.stepFlusher t ok delOk n = some s') : PipelineInv s' := by
  unfold Server.stepFlusher at hs
  split at hs
  · cases hs
  · cases hs
  · next ht =>
    obtain ⟨hflag, hs⟩ := ite_none_left_eq_some.mp hs
    have hflag : s.isFlushing = false := by simpa using hflag
    split at hs <;> cases hs
    · exact h.advance ht (.inr hflag) (fun hb => hb.elim) rfl (fun r hr => hr) (by simp)
    · exact h.advance ht (.inr hflag) (fun _ => rfl) (by simp [FlushPc.batch]) (fun r hr => hr) (by simp)
  · next records ht =>
    split at hs <;> cases hs
    · have hput : (s.putSegment records).uploaded.flatten = s.uploaded.flatten ++ records :=
        flatten_concat
      refine (h.frame _ s.flushedSegments s.log s.coverage s.streamDirs).advance ht (.inl trivial)
        (fun _ => h.exclusive.flag t _ ht trivial) ?_ ?_ ?_
      · rw [hput, append_assoc]
        rfl
      · exact fun r hr => hput ▸ mem_append_left _ hr
      · intro records' heq r hr
        cases heq
        exact hput ▸ mem_append_right _ hr
    · exact h.goOn ht trivial rfl (by simp)
  · next records ht =>
    split at hs <;> cases hs
    exact (h.markFlushed (h.stored records (mem_of_getElem? ht))).goOn ht trivial rfl (by simp)
  · next records ht =>
    cases hs
    exact (h.frame _ s.flushedSegments s.log s.coverage s.streamDirs).goOn ht trivial rfl (by simp)
  · next ht =>
    split at hs <;> cases hs
    exact (h.frame _ _ s.log s.coverage s.streamDirs).goOn ht trivial rfl (by simp)
  · next ht =>
    simp only [deleteSegmentsThrough] at hs
    split at hs <;> cases hs
    exact (h.frame s.store s.flushedSegments _ s.coverage s.streamDirs).goOn ht trivial rfl (by simp)
  · next ht =>
    cases hs
    refine h.advance ht (.inl trivial) ?_ ?_ (fun r hr => hr) ?_
    · split <;> exact fun hb => hb.elim
    · split <;> rfl
    · intro records heq
      split at heq <;> simp at heq
  · next records ht =>
    cases hs
    -- the batch goes back in front of the queue, where it was taken from
    exact h.advance ht (.inl trivial) (fun hb => hb.elim) rfl (fun r hr => hr) (by simp)

end

/-! Every event. -/

theorem pipelineInv_step (s : Server) (e : ServerEvent) (s' : Server) (h : PipelineInv s)
    (hok : s.AttachesFresh e) (hs : s.step e = some s') : PipelineInv s' := by
  cases e with simp only [step] at hs
  | commit items failed =>
    split at hs
    · next hidle => cases hs; exact h.appendBatch hidle.1 items failed
    · simp at hs
  | queue =>
    split at hs
    · next records hc => cases hs; exact h.queue hc
    · simp at hs
  | publish =>
    split at hs
    · next records hc => cases hs; exact h.publish hc
    · simp at hs
  | flush =>
    cases hs
    refine { h with exclusive := h.exclusive.spawn id, split := ?_, stored := ?_ }
    · have hnone : (s.flushers ++ [FlushPc.entry]).flatMap FlushPc.batch = s.inFlight := by
        simp [inFlight, FlushPc.batch]
      simp only [inFlight, hnone]
      exact h.split
    · intro records hmem
      exact h.stored records (by simpa using hmem)
  | flusher t ok delOk n => exact h.stepFlusher hs
  | hello id listOk =>
    split at hs
    · cases hs
      simp only [AttachesFresh] at hok
      unfold getOrCreateStream at hok ⊢
      cases hst : s.streams id with
      | some st => exact h
      | none =>
        simp only [hst, isSome_none, Bool.false_eq_true, false_or] at hok
        have hf := h.frame (s.onStream id (ensureDiscovered listOk)).store s.flushedSegments s.log
          s.coverage (s.onStream id (ensureDiscovered listOk)).streamDirs
        refine { hf with marks := ?_ }
        intro id' st' hst'
        by_cases hid : id' = id
        · subst hid
          simp only [Function.update_self, some.injEq] at hst'
          subst hst'
          exact .inl hok
        · simp only [Function.update_of_ne hid] at hst'
          exact h.marks id' st' hst'
    · simp at hs
  | flushStream id | sealStream id putOk => cases hs; exact h.frame _ s.flushedSegments s.log s.coverage _
  | upload id i putOk | discover id listOk => cases hs; exact h.frame _ s.flushedSegments s.log s.coverage _
  | gc delOk => cases hs; exact h.frame _ s.flushedSegments s.log s.coverage s.streamDirs
  | saveCoverage =>
    cases hs
    unfold saveCoverage
    split
    · exact h
    · exact h.frame s.store s.flushedSegments s.log _ s.streamDirs

/-- **The flush pipeline loses and repeats nothing.** In every interleaving of one
incarnation the committed records are, in the order of strictly ascending
positions, the uploaded segments, the batch in flight and the queue, so that each
is in exactly one of them. Up to `lastFlushedPosition` everything is in uploaded
segments, and where the `s3Seq` of a stream is not zero, it is that of an uploaded
record before which the stream has no record that is not uploaded. -/
theorem flush_pipeline {s : Server}
    (h : Reach IsStarted step AttachesFresh s) :
    s.committed = s.uploaded.flatten ++ (s.inFlight ++ s.unflushedRecords) ∧
    Ascending s.committed ∧
    (∀ r ∈ s.committed, r.position ≤ s.lastFlushedPosition → r ∈ s.uploaded.flatten) ∧
    ∀ id st, s.streams id = some st → st.s3Seq ≠ 0 →
      ∃ r ∈ s.uploaded.flatten, r.streamID = id ∧ r.streamSeq = st.s3Seq ∧
        ∀ r' ∈ s.committed, r'.streamID = id → r'.position ≤ r.position → r' ∈ s.uploaded.flatten := by
  have hi : PipelineInv s := h.inv (fun _ h => h.inv) pipelineInv_step
  refine ⟨hi.split, (pairwise_append.1 hi.ascending).1, ?_, ?_⟩
  · exact fun r hr => hi.flushed r (mem_append_left _ hr)
  · intro id st hst hne
    obtain ⟨r, hr, hid, hseq⟩ := (hi.marks id st hst).resolve_left hne
    exact ⟨r, hr, hid, hseq, fun r' hr' _ hle => hi.stored_of_le hr (mem_append_left _ hr') hle⟩

/-- A server over an empty bucket and an empty directory. -/
def Server.empty : Server := { store := .empty }

theorem Server.empty_isStarted : empty.IsStarted :=
  ⟨rfl, rfl, rfl, List.Pairwise.nil, by simp [empty], le_rfl, by simp [empty], fun _ _ h => by simp [empty] at h⟩

/-- Two flushers: the first fails while a commit goes on, the second stores its batch
with the new records. -/
def twoFlushersRun : List ServerEvent :=
  let move t ok := ServerEvent.flusher t ok (fun _ => true) 0
  [.hello 7 true, .commit [⟨7, 1, []⟩, ⟨8, 1, []⟩] none, .queue, .publish, .flush, .flush, move 0 true,
   .commit [⟨7, 2, []⟩] none, move 0 false, .queue, move 0 true, move 1 true, .publish, move 1 true,
   .commit [⟨8, 2, []⟩] (some 1), move 1 true, move 1 true, move 1 true, move 1 true,
   .commit [⟨7, 3, []⟩] none, .queue]

theorem flush_pipeline_twoFlushers :
    ∃ s : Server, (s.streams 7).map StreamState.s3Seq = some 2 ∧ s.lastFlushedPosition = 3 ∧
      seqs s.committed = [1, 1, 2, 3] ∧ seqs s.unflushedRecords = [3] ∧
      s.committed = s.uploaded.flatten ++ (s.inFlight ++ s.unflushedRecords) ∧
      Ascending s.committed ∧
      (∀ r ∈ s.committed, r.position ≤ s.lastFlushedPosition → r ∈ s.uploaded.flatten) ∧
      ∀ id st, s.streams id = some st → st.s3Seq ≠ 0 →
        ∃ r ∈ s.uploaded.flatten, r.streamID = id ∧ r.streamSeq = st.s3Seq ∧
          ∀ r' ∈ s.committed, r'.streamID = id → r'.position ≤ r.position → r' ∈ s.uploaded.flatten :=
  ⟨(exec step .empty twoFlushersRun).get (by decide), by decide, by decide, by decide,
    by decide, flush_pipeline (Reach.exec (.start empty_isStarted) (by decide) (some_get _).symm)⟩

/-- **One flush at a time.** However many callers there are, one at most is between taking its batch
and clearing `isFlushing`, which is set then. -/
theorem one_flush_at_a_time {s : Server} (h : Reach IsStarted step AttachesFresh s) :
    Exclusive FlushPc.Busy s.isFlushing s.flushers :=
  (h.inv (fun _ h => h.inv) pipelineInv_step : PipelineInv s).exclusive

theorem one_flush_at_a_time_twoFlushers :
    ∃ s : Server, s.flushers.length = 2 ∧ Exclusive FlushPc.Busy s.isFlushing s.flushers :=
  ⟨(exec step .empty twoFlushersRun).get (by decide), by decide,
    one_flush_at_a_time (Reach.exec (.start empty_isStarted) (by decide) (some_get _).symm)⟩

end InClusterStorage.Wal.Buffer
