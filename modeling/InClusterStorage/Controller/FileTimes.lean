import InClusterStorage.Controller.FileData

/- The modification time of a file (`volume.go`).

   `WriteFile` notes its time with the chunks it stages, `SetAttr` changes the row at
   once, and a sync that commits staged chunks puts the noted time into the row. -/
namespace InClusterStorage.Controller

open List

/-- The times of a file, and which of its chunks are staged. -/
structure FileTimes where
  /-- of the inode row -/
  mtime : Nat
  stagedChunks : List Nat := []
  stagedMtime : Option Nat := none
  deriving DecidableEq, Repr

/-- A call of `WriteFile`, at a time. -/
structure TimedWrite where
  write : Write
  nonempty : write.data ≠ []
  now : Nat

/-- A sync of the file at a time, and where it fails. -/
structure TimedSync where
  now : Nat
  err : Option SyncError
  deriving DecidableEq, Repr

/-- The sync commits its transaction; waiting for the stream may fail after that. -/
def TimedSync.commits (sync : TimedSync) : Prop := sync.err = none ∨ sync.err = some .commit

instance (sync : TimedSync) : Decidable sync.commits := inferInstanceAs (Decidable (_ ∨ _))

namespace FileTimes

def writeFile (cs : Nat) (s : FileTimes) (w : TimedWrite) : FileTimes :=
  { s with stagedChunks := s.stagedChunks ∪ w.write.chunks cs, stagedMtime := some w.now }

def setAttr (s : FileTimes) (mtime : Nat) : FileTimes := { s with mtime }

/-- `appendSyncRecordsLocked` and `finishSync`. -/
def sync (s : FileTimes) (sync : TimedSync) : FileTimes :=
  if s.stagedChunks = [] ∨ ¬ sync.commits then s
  else
    let s := { s with mtime := s.stagedMtime.getD sync.now }
    if sync.err = none then { s with stagedChunks := [], stagedMtime := none } else s

theorem staged_writes (cs : Nat) {writes : List TimedWrite} {w : TimedWrite} (hlast : writes.getLast? = some w)
    (s : FileTimes) :
    (writes.foldl (writeFile cs) s).stagedChunks ≠ [] ∧ (writes.foldl (writeFile cs) s).stagedMtime = some w.now := by
  obtain ⟨before, rfl⟩ := getLast?_eq_some_iff.mp hlast
  rw [foldl_append]
  refine ⟨?_, rfl⟩
  have hpos := length_pos_iff.mpr w.nonempty
  have hchunks : 0 < (w.write.chunks cs).length := by
    have hle : w.write.offset / cs ≤ (w.write.stop - 1) / cs := Nat.div_le_div_right (by rw [Write.stop]; omega)
    rw [Write.chunks, chunkRange, length_range']
    omega
  obtain ⟨i, hi⟩ := exists_mem_of_length_pos hchunks
  exact ne_nil_of_mem (mem_union_right (before.foldl (writeFile cs) s).stagedChunks hi)

theorem foldl_sync_of_nil {s : FileTimes} (h : s.stagedChunks = []) (syncs : List TimedSync) : syncs.foldl sync s = s :=
  foldl_fixed' (f := sync) (fun _ => if_pos (.inl h)) syncs

/-- The first sync that commits puts the noted time into the row. -/
theorem mtime_syncs {s : FileTimes} {t : Nat} (hstaged : s.stagedChunks ≠ []) (ht : s.stagedMtime = some t)
    (syncs : List TimedSync) : (syncs.foldl sync s).mtime = if ∃ sync ∈ syncs, sync.commits then t else s.mtime := by
  induction syncs generalizing s with
  | nil => simp
  | cons x syncs ih =>
    rw [foldl_cons]
    by_cases hx : x.commits
    · rw [if_pos ⟨x, mem_cons_self, hx⟩, sync, if_neg (by simp [hstaged, hx])]
      by_cases herr : x.err = none
      · rw [if_pos herr, foldl_sync_of_nil rfl, ht]
        rfl
      · rw [if_neg herr, ih (s := { s with mtime := s.stagedMtime.getD x.now }) hstaged ht, ht]
        exact ite_self t
    · rw [sync, if_pos (.inr hx), ih hstaged ht]
      simp [hx]

end FileTimes

/-- A time that is set after some writes is still in the row after some syncs, unless
one of these commits what was written. -/
theorem mtime_kept_iff (cs mtime : Nat) (writes : List TimedWrite) (syncs : List TimedSync) (t : Nat) :
    (syncs.foldl FileTimes.sync ((writes.foldl (FileTimes.writeFile cs) { mtime }).setAttr t)).mtime = t ↔
      writes = [] ∨ (∀ sync ∈ syncs, ¬ sync.commits) ∨ writes.getLast?.map TimedWrite.now = some t := by
  cases hlast : writes.getLast? with
  | none =>
    rw [getLast?_eq_none_iff.mp hlast, foldl_nil, FileTimes.foldl_sync_of_nil rfl]
    exact iff_of_true rfl (.inl rfl)
  | some w =>
    obtain ⟨hstaged, ht⟩ := FileTimes.staged_writes cs hlast { mtime }
    have hne : writes ≠ [] := by
      rintro rfl
      simp at hlast
    generalize writes.foldl (FileTimes.writeFile cs) { mtime } = s at hstaged ht ⊢
    rw [FileTimes.mtime_syncs (s := s.setAttr t) hstaged ht]
    split
    case isTrue hsome =>
      obtain ⟨x, hx, hcommits⟩ := hsome
      have hnot : ¬ ∀ sync ∈ syncs, ¬ sync.commits := fun h => h x hx hcommits
      simp [hne, hnot]
    case isFalse hnone =>
      exact iff_of_true rfl (.inr (.inl fun x hx hcommits => hnone ⟨x, hx, hcommits⟩))

/-- A byte is written at time 5, the time is set to 3, and a sync puts back 5. -/
theorem mtime_overwritten :
    ((({ mtime := 0 } : FileTimes).writeFile 4 ⟨⟨0, [1]⟩, by decide, 5⟩).setAttr 3 |>.sync ⟨9, none⟩).mtime = 5 := by
  decide

end InClusterStorage.Controller
