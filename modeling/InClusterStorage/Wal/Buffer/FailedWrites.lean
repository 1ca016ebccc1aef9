import InClusterStorage.Lib.Runs
import InClusterStorage.Wal.Buffer.StreamOrder

/- What a failed call of the file system costs a stream. A flush empties the queue and raises the
   counters before it writes, so the records of a failed write are nowhere, while the name of the
   sealed file counts them. A write that fails leaves some first records of the queue. -/
namespace InClusterStorage.Wal.Buffer

open Runs List Buffer.Stream

/-- Where `flushPendingLocked` fails. -/
inductive FlushOutcome where
  | mkdirFails
  | openFails
  | writeFails (n : Nat)
  | closeFails
  | ok
  deriving DecidableEq, Repr

/-- The records are written if the file is opened. -/
def FlushOutcome.Writes : FlushOutcome → Bool
  | .writeFails _ => false
  | _ => true

/-- `flushPendingLocked`, and whether it returns nil. -/
def flushWith (o : FlushOutcome) (s : Stream) : Stream × Bool :=
  match s.w.pending with
  | [] => (s, true)
  | first :: _ =>
    let name := StreamFileName.opened (s.w.flushFrom first)
    match o with
    | .mkdirFails => (s, false)
    | .openFails => ({ s with w := { s.w with openFrom := s.w.flushFrom first } }, false)
    | .writeFails n =>
      ({ s with
        w := s.w.wrote first s.w.pending
        dir := s.dir.insert name (s.dir.records name ++ s.w.pending.take n) }, false)
    | .closeFails => (flushPendingLocked s, false)
    | .ok => (flushPendingLocked s, true)

/-- `sealLocked`; `renameOk` says whether the file is synced and renamed. -/
def sealWith (o : FlushOutcome) (renameOk putOk : Bool) (s : Stream) : Stream :=
  let flushed := flushWith o s
  if flushed.2 ∧ renameOk then
    match renameOpen flushed.1 with
    | none => flushed.1
    | some s' => uploadAt putOk flushed.1.w.sealed.length s'
  else flushed.1

/-- A stream with the records passed to `AppendRecords`. -/
structure Passed where
  s : Stream := {}
  records : List LogRecord := []

inductive WriteEvent where
  | append (records : List LogRecord)
  | flush (o : FlushOutcome)
  | sealFile (o : FlushOutcome) (renameOk putOk : Bool)

namespace Passed

def step (h : Passed) : WriteEvent → Option Passed
  | .append records => some ⟨(appendRecords records h.s).1, h.records ++ records⟩
  | .flush o => some { h with s := (flushWith o h.s).1 }
  | .sealFile o renameOk putOk => some { h with s := sealWith o renameOk putOk h.s }

/-- Every record is queued or in a file, and a sealed file has all records of its range. -/
def Kept (h : Passed) : Prop :=
  (∀ r ∈ h.records, r ∈ h.s.w.pending ∨ ∃ n, r ∈ h.s.dir.records n) ∧
    ∀ a b, StreamFileName.sealed a b ∈ h.s.dir → ∀ r ∈ h.records, a ≤ r.streamSeq → r.streamSeq ≤ b →
      r ∈ h.s.dir.records (.sealed a b)

/-- The records come in order, and no write fails. -/
def WritesOk (h : Passed) : WriteEvent → Prop
  | .append records => ∀ r ∈ records, 0 < r.streamSeq ∧ ∀ n ∈ h.s.w.names, n.2 < r.streamSeq
  | .flush o | .sealFile o _ _ => o.Writes

instance (h : Passed) : ∀ e, Decidable (h.WritesOk e)
  | .append _ => inferInstanceAs (Decidable (∀ r ∈ _, _ ∧ ∀ n ∈ _, _))
  | .flush o | .sealFile o _ _ => inferInstanceAs (Decidable o.Writes)

end Passed

variable {s : Stream} {committed : List LogRecord}

/-- The records of a sealed file are not in the range of another. -/
structure Separate (s : Stream) (committed : List LogRecord) : Prop extends Ordered s committed where
  apart : ∀ n ∈ s.w.names, ∀ n' ∈ s.w.names, n ≠ n' → ∀ r ∈ s.dir.records (.sealed n'.1 n'.2),
    n.1 ≤ r.streamSeq → n.2 < r.streamSeq

theorem Separate.kept {h : Passed} (hi : Separate h.s h.records) : h.Kept := by
  refine ⟨fun r hr => ?_, fun a b hab r hr ha hb => ?_⟩
  · rw [hi.split, unsealed, mem_append, mem_append] at hr
    obtain hr | hr | hr := hr
    · obtain ⟨n, -, hr⟩ := mem_flatMap.1 hr
      exact .inr ⟨_, hr⟩
    · exact .inr ⟨_, hr⟩
    · exact .inl hr
  · have hname := hi.dir_names a b hab
    rw [hi.split, mem_append] at hr
    obtain hr | hr := hr
    · obtain ⟨n, hn, hr⟩ := mem_flatMap.1 hr
      by_cases heq : (a, b) = n
      · rwa [← heq] at hr
      · exact absurd (hi.apart _ hname n hn heq r hr ha) (by simpa using hb)
    · exact absurd (hi.above _ hname r hr) (by simpa using hb)

section

variable (hi : Separate s committed)
include hi

theorem Separate.openFrom (first : LogRecord) :
    Separate { s with w := { s.w with openFrom := s.w.flushFrom first } } committed := by
  by_cases h0 : s.w.recCount = 0
  · have hrec := hi.records_flushFrom first
    have hun : unsealed { s with w := { s.w with openFrom := s.w.flushFrom first } } = s.unsealed := by
      rw [unsealed, hrec, unsealed]
    exact {
      hi with
      toOpenFile := ⟨hi.live, fun f hf => absurd h0 (hi.opened_mem f hf).2, fun h => absurd h0 h⟩
      split := by rw [hun]; exact hi.split
      above := by rw [hun]; exact hi.above
      above_open h := absurd h0 h
      open_le := by rw [hrec]; exact hi.open_le
      open_ne_nil h := absurd h0 h }
  · rwa [StreamWriter.flushFrom, if_neg h0, if_neg (hi.open_ne_zero h0)]

theorem Separate.flush : Separate (flushPendingLocked s) committed :=
  ⟨ordered_flush hi.toOrdered, by simpa using hi.apart⟩

theorem Separate.flushWith {o : FlushOutcome} (ho : o.Writes) :
    Separate (flushWith o s).1 committed ∧ ((flushWith o s).2 = true → (flushWith o s).1.w.pending = []) := by
  unfold Buffer.flushWith
  split
  · next hp => exact ⟨hi, fun _ => hp⟩
  · next first rest hp =>
    cases o with
    | mkdirFails => exact ⟨hi, nofun⟩
    | openFails => exact ⟨hi.openFrom first, nofun⟩
    | writeFails n => cases ho
    | closeFails => exact ⟨hi.flush, nofun⟩
    | ok => exact ⟨hi.flush, fun _ => flush_pending s⟩

theorem Separate.rename (hp : s.w.pending = []) {s' : Stream} (hs : renameOpen s = some s') : Separate s' committed := by
  unfold renameOpen at hs
  split_ifs at hs with hidle
  split at hs <;> cases hs
  rename_i data hd
  have hc : s.w.recCount ≠ 0 := fun h => hidle (.inl h)
  refine ⟨ordered_rename hi.toOrdered hp hc hd, ?_⟩
  have hdata (r) (hr : r ∈ data) : r ∈ s.unsealed := mem_append_left _ (by rwa [Files.records, hd])
  intro n hn n' hn' hne r hr hle
  rw [names_afterRename, mem_append, mem_singleton] at hn hn'
  obtain hn' | rfl := hn'
  · rw [hi.toOrdered.records_afterRename hc data hn'] at hr
    obtain hn | rfl := hn
    · exact hi.apart n hn n' hn' hne r hr hle
    · -- the old file ends below the new one
      have hend := (hi.range n' hn').2 r hr
      exact absurd (hend.trans_lt ((hi.above_open hc).1 n' hn')) hle.not_gt
  · rw [Buffer.records_afterRename, if_pos ⟨rfl, rfl⟩] at hr
    exact hi.above n (hn.resolve_right hne) r (hdata r hr)

theorem Separate.sealWith {o : FlushOutcome} (ho : o.Writes) (renameOk putOk : Bool) :
    Separate (sealWith o renameOk putOk s) committed := by
  obtain ⟨hflushed, hempty⟩ := hi.flushWith ho
  simp only [Buffer.sealWith]
  split_ifs with hok
  · split
    · exact hflushed
    · next s' hs =>
      have hren := hflushed.rename (hempty hok.1) hs
      exact ⟨ordered_uploadAt hren.toOrdered putOk _, by simpa using hren.apart⟩
  · exact hflushed

end

namespace Passed

/-- **No record is lost.** In every run in which records come in order and no write fails, every
record is at all times queued or in a file, and a sealed file has all the records of its range,
whatever other call of the file system or upload fails. -/
theorem kept_of_writes_ok (es : List WriteEvent) (h : Allowed step WritesOk {} es) : Throughout step Kept {} es := by
  refine h.throughout (I := fun h => Separate h.s h.records) (fun h => Separate.kept) ?_ ⟨ordered_new, nofun⟩
  intro h e h' hi hok hs
  cases e with
  | append records =>
    cases hs
    exact ⟨ordered_commit hi.toOrdered hok, by simpa [appendRecords, hi.live, StreamWriter.names] using hi.apart⟩
  | flush o => cases hs; exact (hi.flushWith hok).1
  | sealFile o renameOk putOk => cases hs; exact hi.sealWith hok renameOk putOk

/-- Only the opening of the file fails, and the record is sealed in the end. -/
theorem kept_failed_open :
    Throughout step Kept {} [.append [⟨1, 7, 1, []⟩], .flush .openFails, .append [⟨2, 7, 2, []⟩],
      .sealFile .ok true false] :=
  kept_of_writes_ok _ (by decide)

/-- The write of the first record fails; the file `from1-to2` has only the second. -/
theorem failed_write_loses_record :
    (exec step {} [.append [⟨1, 7, 1, []⟩], .flush (.writeFails 0), .append [⟨2, 7, 2, []⟩], .sealFile .ok true true]).map
      (fun h => (h.records, h.s.w.pending, h.s.dir.keys, h.s.dir.records (.sealed 1 2))) =
    some ([⟨1, 7, 1, []⟩, ⟨2, 7, 2, []⟩], [], [.sealed 1 2], [⟨2, 7, 2, []⟩]) := by
  decide

end Passed

end InClusterStorage.Wal.Buffer
