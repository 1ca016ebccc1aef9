import InClusterStorage.Lib.Runs
import InClusterStorage.Wal.Buffer.StreamLocation

/- Sealing and re-delivery. One `streamWriter` is run without I/O errors: records
   are appended in commit order, where a sequence number that was committed or
   sealed before may come again (the receive loop compares with `witnessSeq`,
   which a queued record has not reached yet), and flushes, seals and
   discoveries fall anywhere in between.

   A seal names its file after the first record written since the last seal and
   after the highest sequence number the writer has ever seen. A re-delivered
   record opens a file at an old number, and while no new number has come the
   end of the name is the old end too: the name can be that of a file sealed
   before, and rename and upload then replace that file.

   `kept_of_opened_anew` says which deliveries are safe: when a file is sealed
   that starts where a sealed file or object starts, the stream has come beyond
   the end of that file or object. -/
namespace InClusterStorage.Wal.Buffer

open List Files Runs

/-- The sequence numbers in the sealed files and in the uploaded objects. -/
def Stream.sealedSeqs (s : Stream) : List Nat := s.dir.sealedSeqs ++ s.objects.sealedSeqs

/-- A stream with every sequence number that was ever in a sealed file or object. -/
structure SealHistory where
  s : Stream
  everSealed : List Nat

inductive SealEvent where
  | append (records : List LogRecord)
  | flush
  | sealFile
  | discover

def SealEvent.apply (s : Stream) : SealEvent → Stream
  | .append records => (appendRecords records s).1
  | .flush => flushPendingLocked s
  | .sealFile => sealLocked true s
  | .discover => discoverRemoteSealedLocked true s

def stepSeal (h : SealHistory) (e : SealEvent) : Option SealHistory :=
  let s := e.apply h.s
  some { s, everSealed := h.everSealed ++ s.sealedSeqs }

/-- A new writer with an empty directory, over the objects of earlier incarnations. -/
def SealHistory.start (objects : Files) : SealHistory :=
  { s := { objects }, everSealed := objects.sealedSeqs }

/-- Everything that was ever sealed is in a sealed file or object now. -/
def SealHistory.Kept (h : SealHistory) : Prop := ∀ q ∈ h.everSealed, q ∈ h.s.sealedSeqs

instance (h : SealHistory) : Decidable h.Kept :=
  inferInstanceAs (Decidable (∀ q ∈ h.everSealed, q ∈ h.s.sealedSeqs))

/-- No sealed file or object starts at the first record that is not sealed yet, or the
stream has come beyond the ends of those that do. -/
def OpenedAnew (s : Stream) : Prop :=
  ∀ first ∈ s.unsealed.head?, ∀ name ∈ s.dir.sealedNames ++ s.objects.sealedNames,
    name.1 = first.streamSeq → name.2 < s.w.lastSeq ∨ ∃ r ∈ s.unsealed, name.2 < r.streamSeq

instance (s : Stream) : Decidable (OpenedAnew s) := inferInstanceAs (Decidable (∀ first ∈ _, _))

/-- The condition on a run. The receive loop drops what is not above `witnessSeq`, so
every record it queues has a positive number. -/
def SealsAnew (h : SealHistory) : SealEvent → Prop
  | .append records => ∀ r ∈ records, 0 < r.streamSeq
  | .sealFile => OpenedAnew h.s
  | _ => True

instance (h : SealHistory) : ∀ e, Decidable (SealsAnew h e)
  | .append records => inferInstanceAs (Decidable (∀ r ∈ records, 0 < r.streamSeq))
  | .sealFile => inferInstanceAs (Decidable (OpenedAnew h.s))
  | .flush | .discover => isTrue trivial

theorem mem_sealedSeqs_congr {s s' : Stream} {q : Nat}
    (hd : ∀ a b, s'.dir.records (.sealed a b) = s.dir.records (.sealed a b))
    (ho : s'.objects = s.objects) : q ∈ s'.sealedSeqs ↔ q ∈ s.sealedSeqs := by
  simp only [Stream.sealedSeqs, mem_append, mem_sealedSeqs, hd, ho]

theorem mem_sealedSeqs_flush (s : Stream) (q : Nat) : q ∈ (flushPendingLocked s).sealedSeqs ↔ q ∈ s.sealedSeqs :=
  mem_sealedSeqs_congr (by simp) (by simp)

/-- Only a seal changes what is sealed. -/
theorem mem_sealedSeqs_apply {s : Stream} {e : SealEvent} (he : e ≠ .sealFile) (q : Nat) :
    q ∈ (e.apply s).sealedSeqs ↔ q ∈ s.sealedSeqs := by
  cases e with
  | append records =>
    simp only [SealEvent.apply, appendRecords]
    split <;> exact mem_sealedSeqs_congr (fun _ _ => rfl) rfl
  | flush => exact mem_sealedSeqs_flush s q
  | sealFile => exact absurd rfl he
  | discover => exact mem_sealedSeqs_congr (fun _ _ => rfl) rfl

/-- What is sealed once the open file of `s`, holding `data`, has been renamed
and uploaded: its records, and those of every other name. -/
theorem mem_sealedSeqs_sealed (s : Stream) (data : List LogRecord) (q : Nat) :
    q ∈ (uploadAt true s.w.sealed.length (afterRename data s)).sealedSeqs ↔
      q ∈ seqs data ∨
        q ∈ Files.sealedSeqs (s.dir.erase (.sealed s.w.openFrom s.w.lastSeq)) ++
          Files.sealedSeqs (s.objects.erase (.sealed s.w.openFrom s.w.lastSeq)) := by
  have hopen : q ∈ sealedSeqs ((s.dir.erase (.opened s.w.openFrom)).erase (.sealed s.w.openFrom s.w.lastSeq)) ↔
      q ∈ sealedSeqs (s.dir.erase (.sealed s.w.openFrom s.w.lastSeq)) := by
    simp [mem_sealedSeqs, records_erase]
  rw [uploadAt_afterRename]
  simp only [Stream.sealedSeqs, Stream.setMeta, afterPut, afterRename, sealedMeta_name,
    mem_append, mem_sealedSeqs_insert, hopen]
  tauto

/-- The open file starts at the record it is named after and has no number above `lastSeq`. -/
structure OpenedAt (s : Stream) : Prop extends OpenFile s where
  queue_pos : ∀ r ∈ s.w.pending, 0 < r.streamSeq
  open_le : ∀ r ∈ s.dir.records (.opened s.w.openFrom), r.streamSeq ≤ s.w.lastSeq
  starts : s.w.recCount ≠ 0 → (s.dir.records (.opened s.w.openFrom)).head?.map LogRecord.streamSeq = some s.w.openFrom

namespace OpenedAt

variable {s : Stream} (hi : OpenedAt s)
include hi

theorem append {records : List LogRecord} (hpos : ∀ r ∈ records, 0 < r.streamSeq) :
    OpenedAt (appendRecords records s).1 := by
  have hs : (appendRecords records s).1 = { s with w := { s.w with pending := s.w.pending ++ records } } := by
    simp [appendRecords, hi.live]
  rw [hs]
  refine { hi with queue_pos := fun r hr => ?_ }
  rcases mem_append.1 hr with hr | hr
  · exact hi.queue_pos r hr
  · exact hpos r hr

theorem flush : OpenedAt (flushPendingLocked s) := by
  have hopen := hi.toOpenFile
  have hlast := flush_lastSeq s
  refine ⟨hopen.flush hi.queue_pos, by simp, ?_, ?_⟩
  · intro r hr
    rw [hopen.records_flush, Stream.unsealed, mem_append] at hr
    rcases hr with hr | hr
    · exact (hi.open_le r hr).trans hlast.1
    · exact hlast.2 r hr
  · cases hp : s.w.pending with
    | nil =>
      rw [flush_nil hp]
      exact hi.starts
    | cons first rest =>
      intro _
      have hfrom : (flushPendingLocked s).w.openFrom = s.w.flushFrom first := by
        rw [flush_cons hp]
        exact (wrote_notedAs s.w first s.w.pending).openFrom
      rw [hopen.records_flush, Stream.unsealed, hfrom, StreamWriter.flushFrom, hp]
      by_cases h0 : s.w.recCount = 0
      · have hnone : s.dir.records (.opened s.w.openFrom) = [] :=
          records_eq_nil fun hf => (hopen.opened_mem _ hf).2 h0
        simp [h0, hnone]
      · rw [if_neg h0, if_neg (hopen.open_ne_zero h0)]
        have hstarts := hi.starts h0
        cases hr : s.dir.records (.opened s.w.openFrom) with
        | nil => simp [hr] at hstarts
        | cons r _ => simpa [hr] using hstarts

/-- What only learns of sealed files keeps the open file. -/
theorem learned {s' : Stream} {ends : List Nat} (h : LearnedAs ends s.w s'.w) (hdir : s'.dir = s.dir) : OpenedAt s' := by
  refine ⟨⟨h.evicted.trans hi.live, ?_, ?_⟩, ?_, ?_, ?_⟩
  · rw [hdir, h.openFrom, h.recCount]
    exact hi.opened_mem
  · rw [h.recCount, h.openFrom]
    exact hi.open_ne_zero
  · rw [h.pending]
    exact hi.queue_pos
  · rw [hdir, h.openFrom]
    exact fun r hr => (hi.open_le r hr).trans h.lastSeq_le
  · rw [hdir, h.openFrom, h.recCount]
    exact hi.starts

theorem afterRename (data : List LogRecord) : OpenedAt (afterRename data s) := by
  have hopen := hi.toOpenFile
  refine ⟨hopen.afterRename data, hi.queue_pos, ?_, fun h => absurd rfl h⟩
  rw [records_eq_nil (hopen.not_mem_afterRename data _)]
  simp

/-- The name of the file to be sealed is new where the file was opened anew. -/
theorem name_new (hanew : OpenedAnew s) (hc : (flushPendingLocked s).w.recCount ≠ 0) :
    let t := flushPendingLocked s
    StreamFileName.sealed t.w.openFrom t.w.lastSeq ∉ s.dir ∧
      StreamFileName.sealed t.w.openFrom t.w.lastSeq ∉ s.objects := by
  intro t
  have hstarts := hi.flush.starts hc
  rw [hi.toOpenFile.records_flush] at hstarts
  obtain ⟨first, hfirst, hseq⟩ := Option.map_eq_some_iff.1 hstarts
  have hlast : s.w.lastSeq ≤ t.w.lastSeq ∧ ∀ r ∈ s.unsealed, r.streamSeq ≤ t.w.lastSeq := by
    refine ⟨(flush_lastSeq s).1, fun r hr => hi.flush.open_le r ?_⟩
    rwa [hi.toOpenFile.records_flush]
  have hnew (hm : (t.w.openFrom, t.w.lastSeq) ∈ s.dir.sealedNames ++ s.objects.sealedNames) : False := by
    rcases hanew first hfirst _ hm hseq.symm with h | ⟨r, hr, h⟩
    · exact absurd h (not_lt.2 hlast.1)
    · exact absurd h (not_lt.2 (hlast.2 r hr))
  exact ⟨fun h => hnew (mem_append_left _ (mem_sealedNames.2 h)),
    fun h => hnew (mem_append_right _ (mem_sealedNames.2 h))⟩

/-- A seal of a file that was opened anew seals it beside everything sealed before. -/
theorem sealLocked (hanew : OpenedAnew s) : OpenedAt (sealLocked true s) ∧
    ∀ q ∈ s.sealedSeqs, q ∈ (sealLocked true s).sealedSeqs := by
  have hflush (q) (hq : q ∈ s.sealedSeqs) : q ∈ (flushPendingLocked s).sealedSeqs :=
    (mem_sealedSeqs_flush s q).2 hq
  rcases renameOpen_cases (flushPendingLocked s) with hn | ⟨data, hc, -, hd, hr⟩
  · -- an idle stream: the seal is a flush
    rw [sealLocked_none hn]
    exact ⟨hi.flush, hflush⟩
  · have hname := hi.name_new hanew hc
    rw [sealLocked_some hr]
    constructor
    · have hmem : sealedMeta (flushPendingLocked s).w ∈ (Buffer.afterRename data (flushPendingLocked s)).w.sealed :=
        mem_append_right _ (mem_singleton.2 rfl)
      rw [uploadAt_afterRename]
      exact (hi.flush.afterRename data).learned (learnedAs_put _ hmem data) rfl
    · intro q hq
      refine (mem_sealedSeqs_sealed _ data q).2 (.inr ?_)
      have hq := hflush q hq
      rw [Stream.sealedSeqs, mem_append,
        mem_sealedSeqs_erase (flushPendingLocked s).w.openFrom (flushPendingLocked s).w.lastSeq,
        mem_sealedSeqs_erase (f := (flushPendingLocked s).objects) (flushPendingLocked s).w.openFrom
          (flushPendingLocked s).w.lastSeq,
        flush_records_sealed, flush_objects, records_eq_nil hname.1, records_eq_nil hname.2] at hq
      simpa using hq

end OpenedAt

/-- One step under the condition keeps what was ever sealed. -/
theorem kept_step (h : SealHistory) (e : SealEvent) (h' : SealHistory)
    (hi : OpenedAt h.s ∧ h.Kept) (hok : SealsAnew h e) (hs : stepSeal h e = some h') : OpenedAt h'.s ∧ h'.Kept := by
  obtain ⟨hopen, hk⟩ := hi
  cases hs
  have hkept (hq : ∀ q ∈ h.s.sealedSeqs, q ∈ (e.apply h.s).sealedSeqs) :
      ∀ q ∈ h.everSealed ++ (e.apply h.s).sealedSeqs, q ∈ (e.apply h.s).sealedSeqs := by
    intro q hm
    rcases mem_append.1 hm with hm | hm
    · exact hq q (hk q hm)
    · exact hm
  cases e with
  | append records =>
    exact ⟨hopen.append hok, hkept fun q => (mem_sealedSeqs_apply (e := .append records) (by simp) q).2⟩
  | flush => exact ⟨hopen.flush, hkept fun q => (mem_sealedSeqs_flush h.s q).2⟩
  | sealFile => exact ⟨(hopen.sealLocked hok).1, hkept (hopen.sealLocked hok).2⟩
  | discover =>
    exact ⟨hopen.learned (learnedAs_discover true h.s) rfl,
      hkept fun q => (mem_sealedSeqs_apply (e := .discover) (by simp) q).2⟩

theorem openedAt_new (objects : Files) : OpenedAt { objects } := by
  have hnot (n : StreamFileName) : n ∉ (∅ : Files) := AList.notMem_empty n
  refine ⟨⟨rfl, fun f hf => absurd hf (hnot _), fun h => absurd rfl h⟩, by simp, ?_, fun h => absurd rfl h⟩
  rw [records_eq_nil (hnot _)]
  simp

/-- **Files that are opened anew never replace a sealed file.** Whatever objects the
writer starts over, and whatever records are delivered again: if each file that is
sealed starts at a record at which no sealed file or object starts, or the stream has
come beyond the end of those that do, every sequence number that was ever in a sealed
file or object is in one after each step of the run. -/
theorem kept_of_opened_anew (objects : Files) (es : List SealEvent)
    (hes : Allowed stepSeal SealsAnew (.start objects) es) :
    Throughout stepSeal SealHistory.Kept (.start objects) es :=
  Allowed.throughout (I := fun h => OpenedAt h.s ∧ h.Kept) (P := SealHistory.Kept) (fun _ hi => hi.2) kept_step
    ⟨openedAt_new objects, fun _ hq => mem_append_right _ hq⟩ hes

/-- Records 1 and 2 are sealed, record 1 comes again and then record 3: the file from 1
to 3 is sealed beside the one from 1 to 2. -/
theorem kept_of_opened_anew_beyond :
    let es : List SealEvent := [.append [⟨1, 7, 1, []⟩, ⟨2, 7, 2, []⟩], .sealFile,
      .append [⟨3, 7, 1, []⟩], .flush, .append [⟨4, 7, 3, []⟩], .sealFile, .discover, .sealFile]
    Allowed stepSeal SealsAnew (.start ∅) es ∧ Throughout stepSeal SealHistory.Kept (.start ∅) es :=
  ⟨by decide, kept_of_opened_anew ∅ _ (by decide)⟩

def redelivery : List SealEvent :=
  [.append [⟨1, 7, 1, []⟩, ⟨2, 7, 2, []⟩], .sealFile, .append [⟨3, 7, 1, []⟩], .sealFile]

/-- Records 1 and 2 are sealed as `from1-to2`; record 1 comes again and is sealed
under the same name, and record 2 is in no sealed file or object any more. -/
theorem redelivery_loses_sealed :
    ¬ Throughout stepSeal SealHistory.Kept (.start ∅) redelivery ∧
      (exec stepSeal (.start ∅) redelivery).map (fun h =>
        (decide (2 ∈ h.everSealed), h.s.sealedSeqs)) = some (true, [1, 1]) := by
  decide

end InClusterStorage.Wal.Buffer
