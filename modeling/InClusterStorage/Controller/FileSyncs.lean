import InClusterStorage.Controller.FileWrites

/- What a sync does to a file: its commit writes the snapshot to the rows, and
   `finishSync` drops the staged chunks that are still those of the snapshot. Neither
   changes the file as the next sync will leave it. -/
namespace InClusterStorage.Controller

open Bytes Table Option File

/-! The commit. -/

/-- Chunks of a snapshot in order. -/
structure SnapshotOk (cs : Nat) (snap : Snapshot) : Prop where
  taken : ∃ i r, snap.chunks.lookup i = some r
  nonempty : ∀ i r, snap.chunks.lookup i = some r → r.data ≠ []
  short : ∀ i r, snap.chunks.lookup i = some r → r.data.length ≤ cs
  fits : ∀ i r, snap.chunks.lookup i = some r → i * cs + r.data.length ≤ snap.size

theorem SnapshotOk.index_eq_zero {cs : Nat} {snap : Snapshot} (h : SnapshotOk cs snap) (hsize : snap.size ≤ cs)
    {i : Nat} {r : StagedChunkReference} (hr : snap.chunks.lookup i = some r) : i = 0 := by
  by_contra hi
  have hmul : 1 * cs ≤ i * cs := Nat.mul_le_mul_right cs (Nat.pos_of_ne_zero hi)
  have hfits := h.fits i r hr
  have hlen := List.length_pos_iff.mpr (h.nonempty i r hr)
  omega

/-- Where the rows have grown beyond the size at which a file is inline while the
snapshot has not, the commit writes no digest: the chunk is lost. -/
def Snapshot.loses (limits : Limits) (snap : Snapshot) (f : File) : Prop :=
  snap.size ≤ limits.maxInlineLen ∧ limits.maxInlineLen < f.row.size ∧ snap.chunks.entries.length ≤ 1

instance (limits : Limits) (snap : Snapshot) (f : File) : Decidable (snap.loses limits f) :=
  inferInstanceAs (Decidable (_ ∧ _ ∧ _))

/-- What a commit leaves in the rows. -/
structure Commits (limits : Limits) (cs : Nat) (snap : Snapshot) (f f' : File) : Prop where
  rows : RowsOk limits cs f'
  frame : f' = { f with row := f'.row, chunkRows := f'.chunkRows }
  size : f'.row.size = max snap.size f.row.size
  inline : f'.inlineData ≠ [] → f'.row.size ≤ limits.maxInlineLen
  snapped : ∀ i r, snap.chunks.lookup i = some r → f'.committed i = if snap.loses limits f then [] else r.data
  others : ∀ i, snap.chunks.lookup i = none → f'.committed i = f.committed i

section Commit

variable {limits : Limits} {cs : Nat} {f : File} {snap : Snapshot}

/-- The rows after a commit that makes the file inline. -/
theorem File.appendSyncRecords_inline
    (hsmall : max snap.size f.row.size ≤ limits.maxInlineLen ∧ snap.chunks.entries.length ≤ 1) {data : List UInt8}
    (hdata : ((snap.chunks.lookup 0).map (·.data)).getD [] = data) {f' : File}
    (hf' : f.appendSyncRecords limits snap = f') :
    f' = { f with
      row := { size := max snap.size f.row.size, chunkSize := limits.chunkSizeOf f.row, contentSha256 := some data }
      chunkRows := f'.chunkRows } ∧
      f'.inlineData = data ∧ f'.blob 0 = none ∧ ∀ i, i ≠ 0 → f'.blob i = f.blob i := by
  simp only [appendSyncRecords, if_pos hsmall, hdata] at hf'
  have hzero : f'.chunkRows.lookup 0 = some { inlineData := data } := by
    rw [← hf']
    exact AList.lookup_insert _
  refine ⟨by rw [← hf'], inlineData_of_lookup hzero, blob_of_inline hzero, fun i hi => blob_congr ?_⟩
  rw [← hf']
  exact AList.lookup_insert_ne hi

/-- The rows after a commit that writes chunks. -/
theorem File.appendSyncRecords_chunks
    (hlarge : ¬ (max snap.size f.row.size ≤ limits.maxInlineLen ∧ snap.chunks.entries.length ≤ 1))
    (hinline : f.inlineData ≠ [] → (snap.chunks.lookup 0).isSome) {f' : File}
    (hf' : f.appendSyncRecords limits snap = f') :
    f' = { f with
      row := { size := max snap.size f.row.size, chunkSize := limits.chunkSizeOf f.row, manifestSha256 := true }
      chunkRows := f'.chunkRows } ∧
      f'.inlineData = [] ∧
      ∀ i, f'.blob i = if (snap.chunks.lookup i).isSome then snap.chunkSha limits i else f.blob i := by
  simp only [appendSyncRecords, if_neg hlarge] at hf'
  have hrow (i) : f'.chunkRows.lookup i =
      if i ∈ snap.chunks.keys then some { sha256 := snap.chunkSha limits i } else f.chunkRows.lookup i := by
    rw [← hf']
    exact lookup_foldl_insert _ _ _ _
  simp only [mem_keys] at hrow
  refine ⟨by rw [← hf'], ?_, fun i => ?_⟩
  · have h0 := hrow 0
    split at h0
    case isTrue => exact inlineData_of_lookup h0
    case isFalse hnone =>
      rw [inlineData_congr h0]
      by_contra hne
      exact hnone (hinline hne)
  · have hi := hrow i
    split at hi
    case isTrue hsome => rw [if_pos hsome, blob_of_lookup hi]
    case isFalse hnone => rw [if_neg hnone, blob_congr hi]

theorem commits_inline (h : RowsOk limits cs f) (hsnap : SnapshotOk cs snap)
    (hsmall : max snap.size f.row.size ≤ limits.maxInlineLen ∧ snap.chunks.entries.length ≤ 1) :
    Commits limits cs snap f (f.appendSyncRecords limits snap) := by
  have hmax := h.maxInline
  have hsize : snap.size ≤ cs := by omega
  -- the snapshot holds chunk 0 and no other
  obtain ⟨i, r, hr⟩ := hsnap.taken
  obtain rfl := hsnap.index_eq_zero hsize hr
  have hlen := hsnap.fits 0 r hr
  have hne := hsnap.nonempty 0 r hr
  have hdata : ((snap.chunks.lookup 0).map (·.data)).getD [] = r.data := by
    rw [hr]
    rfl
  obtain ⟨hframe, hinline, hblob₀, hblobs⟩ := appendSyncRecords_inline hsmall hdata rfl
  rw [h.chunkSizeOf] at hframe
  generalize f.appendSyncRecords limits snap = f' at hframe hinline hblob₀ hblobs ⊢
  have hblob (j) : f'.blob j = none := by
    by_cases hj : j = 0
    · rw [hj, hblob₀]
    · rw [hblobs j hj, h.blob_eq_none (by omega) hj]
  have hsize' : f'.row.size = max snap.size f.row.size := by rw [hframe]
  constructor
  case rows =>
    apply RowsOk.of_inline h.pos hmax (by rw [hframe]) (by rw [hframe])
    · rwa [hinline]
    · rw [hinline]
      omega
    · rw [hinline, hsize']
      omega
    · exact hblob
  case frame => rw [hframe]
  case size => exact hsize'
  case inline =>
    intro _
    rw [hsize']
    exact hsmall.1
  case snapped =>
    intro i r' hr'
    obtain rfl := hsnap.index_eq_zero hsize hr'
    cases hr.symm.trans hr'
    have hkept : ¬ snap.loses limits f := fun hloses => by
      have := hloses.2.1
      omega
    rw [if_neg hkept, committed_zero (by rwa [hinline]), hinline]
  case others =>
    intro i hi
    have hne0 : i ≠ 0 := by
      rintro rfl
      cases hr.symm.trans hi
    rw [committed_of_ne hne0, committed_of_ne hne0, hblob, h.blob_eq_none (by omega) hne0]

theorem commits_blobs (h : RowsOk limits cs f) (hsnap : SnapshotOk cs snap)
    (hinline : f.inlineData ≠ [] → (snap.chunks.lookup 0).isSome)
    (hlarge : ¬ (max snap.size f.row.size ≤ limits.maxInlineLen ∧ snap.chunks.entries.length ≤ 1)) :
    Commits limits cs snap f (f.appendSyncRecords limits snap) := by
  have hsha (i r) (hr : snap.chunks.lookup i = some r) :
      snap.chunkSha limits i = if snap.loses limits f then none else some r.data := by
    rw [Snapshot.chunkSha, hr]
    refine if_congr ⟨fun hsmall => ⟨hsmall.1, ?_, hsmall.2⟩, fun hloses => ⟨hloses.1, hloses.2.2⟩⟩ rfl rfl
    by_contra hrow
    exact hlarge ⟨by omega, hsmall.2⟩
  obtain ⟨hframe, hinline', hblobs⟩ := appendSyncRecords_chunks hlarge hinline rfl
  rw [h.chunkSizeOf] at hframe
  generalize f.appendSyncRecords limits snap = f' at hframe hinline' hblobs ⊢
  have hsnapped (i r) (hr : snap.chunks.lookup i = some r) :
      f'.blob i = if snap.loses limits f then none else some r.data := by
    rw [hblobs, if_pos (by rw [hr]; rfl), hsha i r hr]
  have hothers (i) (hi : snap.chunks.lookup i = none) : f'.blob i = f.blob i := by
    rw [hblobs, if_neg (by simp [hi])]
  have hsize : f'.row.size = max snap.size f.row.size := by rw [hframe]
  have hblob (i d) (hd : f'.blob i = some d) : d ≠ [] ∧ d.length ≤ cs ∧ i * cs + d.length ≤ f'.row.size := by
    cases hi : snap.chunks.lookup i with
    | some r =>
      rw [hsnapped i r hi] at hd
      split at hd <;> cases hd
      have hfits := hsnap.fits i r hi
      exact ⟨hsnap.nonempty i r hi, hsnap.short i r hi, by omega⟩
    | none =>
      rw [hothers i hi] at hd
      have hcommitted := h.committed_of_blob hd
      have hfits := h.fits i (hcommitted ▸ h.blobs i d hd)
      have hshort := h.short i
      rw [hcommitted] at hfits hshort
      exact ⟨h.blobs i d hd, hshort, by omega⟩
  constructor
  case rows =>
    exact RowsOk.of_blobs h.pos h.maxInline (by rw [hframe]) (by rw [hframe]) (.inl (by rw [hframe])) hinline' hblob
  case frame => rw [hframe]
  case size => exact hsize
  case inline => exact fun hne => absurd hinline' hne
  case snapped =>
    intro i r hr
    rw [committed_of_no_inline hinline', hsnapped i r hr]
    split <;> rfl
  case others =>
    intro i hi
    rw [committed_of_no_inline hinline', hothers i hi, committed]
    split
    case isTrue h0 =>
      rw [h0.1] at hi
      exact absurd (hinline h0.2) (by simp [hi])
    case isFalse => rfl

theorem commits (h : RowsOk limits cs f) (hsnap : SnapshotOk cs snap)
    (hinline : f.inlineData ≠ [] → (snap.chunks.lookup 0).isSome) :
    Commits limits cs snap f (f.appendSyncRecords limits snap) := by
  by_cases hsmall : max snap.size f.row.size ≤ limits.maxInlineLen ∧ snap.chunks.entries.length ≤ 1
  · exact commits_inline h hsnap hsmall
  · exact commits_blobs h hsnap hinline hsmall

end Commit

/-! Dropping staged chunks. -/

/-- Staged chunks are dropped or replaced, and the staged size goes with the last of
them; nothing else changes. -/
structure Restaged (f f' : File) : Prop where
  frame : f' = { f with stagedChunks := f'.stagedChunks, stagedSize := f'.stagedSize }
  sized : f'.stagedSize.isSome ↔ ∃ i r, f'.stagedChunks.lookup i = some r
  size : ∀ size, f'.stagedSize = some size → f.stagedSize = some size

namespace Restaged

variable {f f' f'' : File}

theorem refl (h : f.Sized) : Restaged f f := ⟨rfl, h, fun _ hs => hs⟩

theorem trans (h : Restaged f f') (h' : Restaged f' f'') : Restaged f f'' := by
  refine ⟨?_, h'.sized, fun size hs => h.size size (h'.size size hs)⟩
  rw [h'.frame, h.frame]

theorem foldl {step : File → Nat → File} (hstep : ∀ g, g.Sized → ∀ i, Restaged g (step g i)) (h : f.Sized)
    (indices : List Nat) : Restaged f (indices.foldl step f) := by
  induction indices generalizing f with
  | nil => exact refl h
  | cons i indices ih => exact (hstep f h i).trans (ih (hstep f h i).sized)

end Restaged

namespace File

theorem stagedSize_eq_none {f : File} (h : f.Sized) (hempty : f.stagedChunks.entries.length = 0) : f.stagedSize = none := by
  rw [← not_isSome_iff_eq_none, Iff.not h, ← length_pos]
  omega

theorem lookup_dropStagedChunk (f : File) (i j : Nat) :
    (f.dropStagedChunk i).stagedChunks.lookup j = if j = i then none else f.stagedChunks.lookup j := by
  unfold dropStagedChunk
  cases hs : f.stagedChunks.lookup i with
  | none =>
    by_cases hj : j = i
    · rw [if_pos hj, hj, hs]
    · rw [if_neg hj]
  | some r => exact lookup_erase i f.stagedChunks j

theorem restaged_dropStagedChunk {f : File} (h : f.Sized) (i : Nat) : Restaged f (f.dropStagedChunk i) := by
  unfold dropStagedChunk
  cases hs : f.stagedChunks.lookup i with
  | none => exact Restaged.refl h
  | some r =>
    refine ⟨rfl, ?_, ?_⟩
    · simp only
      rw [← length_pos]
      split
      case isTrue hzero => simp [hzero]
      case isFalse hzero =>
        have hsome : f.stagedSize.isSome := h.mpr ⟨i, r, hs⟩
        simp only [hsome, true_iff]
        omega
    · intro size hsize
      simp only at hsize
      split at hsize
      · simp at hsize
      · exact hsize

theorem restaged_setStagedChunk {f : File} (h : f.Sized) {i : Nat} {r : StagedChunkReference}
    (hr : f.stagedChunks.lookup i = some r) (data : List UInt8) : Restaged f (f.setStagedChunk i data) := by
  refine ⟨rfl, ?_, fun _ hs => hs⟩
  have hsome : f.stagedSize.isSome := h.mpr ⟨i, r, hr⟩
  exact ⟨fun _ => ⟨i, _, AList.lookup_insert _⟩, fun _ => hsome⟩

theorem lookup_finishSync (f : File) (snap : Snapshot) (j : Nat) :
    (f.finishSync snap).stagedChunks.lookup j =
      if (f.stagedChunks.lookup j).isSome ∧ f.stagedChunks.lookup j = snap.chunks.lookup j then none
      else f.stagedChunks.lookup j := by
  let change (i : Nat) (c : Option StagedChunkReference) :=
    if c.isSome ∧ c = snap.chunks.lookup i then none else c
  have hstep : ∀ (f : File) i j, (dropCommitted snap f i).stagedChunks.lookup j =
      if j = i then change i (f.stagedChunks.lookup i) else f.stagedChunks.lookup j := by
    intro f i j
    unfold dropCommitted
    by_cases hc : (f.stagedChunks.lookup i).isSome ∧ f.stagedChunks.lookup i = snap.chunks.lookup i
    · rw [if_pos hc, lookup_dropStagedChunk]
      simp only [change, if_pos hc]
    rw [if_neg hc]
    simp only [change, if_neg hc]
    split
    case isTrue hj => rw [hj]
    case isFalse => rfl
  apply foldl_keys (fun (f : File) i => f.stagedChunks.lookup i) hstep
  intro i c hnone
  apply if_neg
  rintro ⟨hsome, heq⟩
  rw [heq, hnone] at hsome
  simp at hsome

theorem restaged_finishSync {f : File} (h : f.Sized) (snap : Snapshot) : Restaged f (f.finishSync snap) := by
  apply Restaged.foldl _ h
  intro g hg i
  unfold dropCommitted
  split
  · exact restaged_dropStagedChunk hg i
  · exact Restaged.refl hg

end File

/-! A sync in progress. -/

/-- A sync whose snapshot is not committed yet. What was staged since is in the
current pack, what was staged before is in the snapshot. -/
structure Taken (limits : Limits) (cs : Nat) (f : File) (snap : Snapshot) : Prop where
  ok : SnapshotOk cs snap
  packs : ∀ i r, snap.chunks.lookup i = some r → r.packID < f.packID
  kept : ∀ i r, snap.chunks.lookup i = some r → ∃ r', f.stagedChunks.lookup i = some r'
  before : ∀ i r, f.stagedChunks.lookup i = some r → r.packID < f.packID → snap.chunks.lookup i = some r
  rowSize : f.row.size ≤ snap.size
  sized : (∃ i r, f.stagedChunks.lookup i = some r ∧ r.packID = f.packID) ∨ f.size = snap.size
  size : snap.size ≤ f.size
  inline : f.inlineData ≠ [] → (snap.chunks.lookup 0).isSome
  small : snap.size ≤ limits.maxInlineLen → ∀ i r, f.stagedChunks.lookup i = some r → i = 0

/-- A sync whose snapshot is committed. -/
structure Written (limits : Limits) (f : File) (snap : Snapshot) : Prop where
  packs : ∀ i r, snap.chunks.lookup i = some r → r.packID < f.packID
  rowSize : f.row.size = snap.size
  sized : (∃ i r, f.stagedChunks.lookup i = some r ∧ r.packID = f.packID) ∨ f.size = snap.size
  committed : ∀ i r, snap.chunks.lookup i = some r → f.committed i = r.data
  inline : f.inlineData ≠ [] → snap.size ≤ limits.maxInlineLen
  small : snap.size ≤ limits.maxInlineLen → ∀ i r, f.stagedChunks.lookup i = some r → i = 0

/-- The file is the same, as the next sync will leave it. -/
structure SameCurrent (f f' : File) : Prop where
  size : f'.size = f.size
  current : ∀ i, f'.current i = f.current i

theorem File.appendSyncRecords_stagedChunks (limits : Limits) (f : File) (snap : Snapshot) :
    (f.appendSyncRecords limits snap).stagedChunks = f.stagedChunks := by
  unfold appendSyncRecords
  simp only
  split <;> rfl

section Sync

variable {limits : Limits} {cs : Nat} {f : File} {snap : Snapshot}

section

variable (h : StagedOk cs f)
include h

theorem StagedOk.sealActivePack : StagedOk cs f.sealActivePack :=
  { h with packs i r hr := Nat.le_succ_of_le (h.packs i r hr) }

omit h in
theorem WellFormed.sealActivePack (h : WellFormed limits cs f) : WellFormed limits cs f.sealActivePack :=
  ⟨h.rows.restaged f.stagedChunks f.stagedSize (f.packID + 1), h.staged.sealActivePack, h.grown⟩

theorem StagedOk.stagedSize_eq {i : Nat} {r : StagedChunkReference}
    (hr : f.stagedChunks.lookup i = some r) : f.stagedSize = some f.size := by
  obtain ⟨size, hsome⟩ := isSome_iff_exists.mp (h.sized.mpr ⟨i, r, hr⟩)
  rw [File.size, hsome]
  rfl

theorem StagedOk.of_rows {f' : File}
    (hframe : f' = { f with row := f'.row, chunkRows := f'.chunkRows })
    (hinline : f'.inlineData ≠ [] → (∃ i r, f.stagedChunks.lookup i = some r) → (f.stagedChunks.lookup 0).isSome) :
    StagedOk cs f' := by
  have hchunks : f'.stagedChunks = f.stagedChunks := by rw [hframe]
  have hstagedSize : f'.stagedSize = f.stagedSize := by rw [hframe]
  have hpack : f'.packID = f.packID := by rw [hframe]
  refine ⟨?_, ?_, ?_, ?_, ?_, ?_⟩ <;> rw [hchunks]
  · exact h.nonempty
  · exact h.short
  · intro i r hr
    rw [size, hstagedSize, h.stagedSize_eq hr]
    exact h.fits i r hr
  · exact hpack ▸ h.packs
  · exact hstagedSize ▸ h.sized
  · exact hinline

theorem StagedOk.of_restaged {f' : File} (hre : Restaged f f')
    (hleft : ∀ i r, f'.stagedChunks.lookup i = some r → f.stagedChunks.lookup i = some r)
    (hinline : f.inlineData ≠ [] → (∃ i r, f'.stagedChunks.lookup i = some r) → (f'.stagedChunks.lookup 0).isSome) :
    StagedOk cs f' := by
  refine ⟨fun i r hr => h.nonempty i r (hleft i r hr), fun i r hr => h.short i r (hleft i r hr), ?_, ?_, hre.sized, ?_⟩
  · intro i r hr
    obtain ⟨size, hsome⟩ := isSome_iff_exists.mp (hre.sized.mpr ⟨i, r, hr⟩)
    have hsame : f'.size = f.size := by
      rw [File.size, File.size, hsome, hre.size size hsome]
      rfl
    exact hsame ▸ h.fits i r (hleft i r hr)
  · intro i r hr
    rw [hre.frame]
    exact h.packs i r (hleft i r hr)
  · intro hne
    rw [hre.frame] at hne
    exact hinline hne

theorem StagedOk.snapshot (hstaged : 0 < f.stagedChunks.entries.length) :
    SnapshotOk cs f.snapshot ∧ f.snapshot.size = f.size := by
  obtain ⟨i, r, hr⟩ := length_pos.mp hstaged
  have hsize : f.snapshot.size = f.size := by
    rw [File.snapshot, h.stagedSize_eq hr]
    rfl
  exact ⟨⟨⟨i, r, hr⟩, h.nonempty, h.short, fun i r hi => hsize ▸ h.fits i r hi⟩, hsize⟩

end

section

variable (h : WellFormed limits cs f)
include h

theorem Taken.of_snapshot (hstaged : 0 < f.stagedChunks.entries.length) :
    Taken limits cs f.sealActivePack f.snapshot := by
  obtain ⟨hok, hsize⟩ := h.staged.snapshot hstaged
  obtain ⟨i, r, hr⟩ := length_pos.mp hstaged
  refine ⟨hok, fun i r hi => Nat.lt_succ_of_le (h.staged.packs i r hi), fun i r hi => ⟨r, hi⟩, fun i r hi _ => hi,
    hsize ▸ h.grown, .inr hsize.symm, le_of_eq hsize, fun hne => h.staged.inline hne ⟨i, r, hr⟩, ?_⟩
  intro hsmall i r hi
  exact hok.index_eq_zero (le_trans hsmall h.rows.maxInline) hi

/-- Until the commit everything in the snapshot stays staged, so that it makes no
difference to the file. -/
theorem Taken.commit (ht : Taken limits cs f snap) :
    WellFormed limits cs (f.appendSyncRecords limits snap) ∧ Written limits (f.appendSyncRecords limits snap) snap ∧
      SameCurrent f (f.appendSyncRecords limits snap) := by
  have hc := commits h.rows ht.ok ht.inline
  generalize f.appendSyncRecords limits snap = f' at hc ⊢
  have hchunks : f'.stagedChunks = f.stagedChunks := by rw [hc.frame]
  have hstagedSize : f'.stagedSize = f.stagedSize := by rw [hc.frame]
  have hpack : f'.packID = f.packID := by rw [hc.frame]
  have hrow : f'.row.size = snap.size := by
    rw [hc.size]
    exact max_eq_left ht.rowSize
  obtain ⟨i, r, hr⟩ := ht.ok.taken
  obtain ⟨size, hsome⟩ := isSome_iff_exists.mp (h.staged.sized.mpr ⟨i, ht.kept i r hr⟩)
  have hsize : f'.size = f.size := by
    rw [File.size, File.size, hstagedSize, hsome]
    rfl
  have hkept : ¬ snap.loses limits f := by
    intro hloses
    have hrowSize := ht.rowSize
    have := hloses.1
    have := hloses.2.1
    omega
  refine ⟨⟨hc.rows, ?_, ?_⟩, ?_, ?_⟩
  · apply h.staged.of_rows hc.frame
    intro hne _
    -- inline data is written from chunk 0, or was there before
    have hzero : i = 0 :=
      ht.ok.index_eq_zero (le_trans (hrow ▸ hc.inline hne) h.rows.maxInline) hr
    obtain ⟨r', hr'⟩ := ht.kept i r hr
    rw [← hzero, hr']
    rfl
  · rw [hrow, hsize]
    exact ht.size
  · refine ⟨hpack ▸ ht.packs, hrow, ?_, ?_, fun hne => hrow ▸ hc.inline hne, ?_⟩
    · rw [hchunks, hpack, hsize]
      exact ht.sized
    · intro j r' hr'
      rw [hc.snapped j r' hr', if_neg hkept]
    · rw [hchunks]
      exact ht.small
  · refine ⟨hsize, ?_⟩
    intro j
    cases hs : f.stagedChunks.lookup j with
    | some r' => rw [current_of_staged hs, current_of_staged (hchunks ▸ hs)]
    | none =>
      have hnone : snap.chunks.lookup j = none := by
        cases hj : snap.chunks.lookup j with
        | none => rfl
        | some r' =>
          obtain ⟨_, hstaged⟩ := ht.kept j r' hj
          rw [hs] at hstaged
          simp at hstaged
      rw [current_of_none hs, current_of_none (hchunks ▸ hs), hc.others j hnone]

omit h in
theorem File.finishSync_left (f : File) (snap : Snapshot) (i : Nat) (r : StagedChunkReference)
    (hr : (f.finishSync snap).stagedChunks.lookup i = some r) : f.stagedChunks.lookup i = some r := by
  rw [f.lookup_finishSync] at hr
  split at hr
  · simp at hr
  · exact hr

/-- A chunk that is dropped is in the rows. -/
theorem Written.finish (hw : Written limits f snap) :
    WellFormed limits cs (f.finishSync snap) ∧ SameCurrent f (f.finishSync snap) := by
  have hlookup := f.lookup_finishSync snap
  have hre := restaged_finishSync h.staged.sized snap
  have hleft := f.finishSync_left snap
  generalize f.finishSync snap = f' at hlookup hre hleft ⊢
  have hrow : f'.row = f.row := by rw [hre.frame]
  have hcommitted (i) : f'.committed i = f.committed i := by
    rw [hre.frame]
    rfl
  -- the size goes only when nothing is left that was staged after the snapshot
  have hsize : f'.size = f.size := by
    cases hs : f'.stagedSize with
    | some size =>
      rw [File.size, File.size, hs, hre.size size hs]
      rfl
    | none =>
      have hnothing : ∀ i r, f'.stagedChunks.lookup i ≠ some r := by
        intro i r hr
        have hsome := hre.sized.mpr ⟨i, r, hr⟩
        rw [hs] at hsome
        simp at hsome
      rcases hw.sized with ⟨i, r, hr, hpack⟩ | heq
      · have hnew : ¬ ((f.stagedChunks.lookup i).isSome ∧ f.stagedChunks.lookup i = snap.chunks.lookup i) := by
          rintro ⟨_, hsnap⟩
          have hlt := hw.packs i r (hsnap ▸ hr)
          omega
        have hi := hlookup i
        rw [if_neg hnew] at hi
        exact absurd (hi.trans hr) (hnothing i r)
      · rw [heq, size, hs, hrow, ← hw.rowSize]
        rfl
  refine ⟨⟨?_, ?_, ?_⟩, hsize, ?_⟩
  · rw [hre.frame]
    exact h.rows.restaged _ _ f.packID
  · apply h.staged.of_restaged hre hleft
    rintro hne ⟨i, r, hr⟩
    have hzero : i = 0 := hw.small (hw.inline hne) i r (hleft i r hr)
    rw [← hzero, hr]
    rfl
  · rw [hrow, hsize]
    exact h.grown
  · intro i
    cases hs : f'.stagedChunks.lookup i with
    | some r => rw [current_of_staged hs, current_of_staged (hleft i r hs)]
    | none =>
      rw [current_of_none hs, hcommitted]
      have hi := hlookup i
      rw [hs] at hi
      split at hi
      case isTrue hdropped =>
        obtain ⟨r, hr⟩ := isSome_iff_exists.mp hdropped.1
        rw [current_of_staged hr, hw.committed i r (hdropped.2 ▸ hr)]
      case isFalse => rw [current_of_none hi.symm]

omit h in
theorem WellFormed.of_rows (h : RowsOk limits cs f) (hnone : ∀ i, f.stagedChunks.lookup i = none)
    (hsize : f.stagedSize = none) : WellFormed limits cs f := by
  have hno : ∀ i r, f.stagedChunks.lookup i ≠ some r := fun i r hr => by simp [hnone i] at hr
  refine ⟨h, ⟨fun i r hr => absurd hr (hno i r), fun i r hr => absurd hr (hno i r), fun i r hr => absurd hr (hno i r),
    fun i r hr => absurd hr (hno i r), ?_, fun _ ⟨i, r, hr⟩ => absurd hr (hno i r)⟩, ?_⟩
  · simp [hsize, hnone]
  · rw [size, hsize]
    exact le_rfl

theorem WellFormed.stagedSize_eq_none (hnone : ∀ i, f.stagedChunks.lookup i = none) : f.stagedSize = none :=
  File.stagedSize_eq_none h.staged.sized (length_eq_zero.mpr hnone)

omit h in
theorem currentByte_eq_committedByte (hnone : ∀ i, f.stagedChunks.lookup i = none) (p : Nat) :
    f.currentByte cs p = f.committedByte cs p := by
  rw [currentByte, current_of_none (hnone _)]
  rfl

omit h in
theorem SameCurrent.currentByte {f' : File} (h : SameCurrent f f') (p : Nat) :
    f'.currentByte cs p = f.currentByte cs p := by
  rw [File.currentByte, h.current, ← File.currentByte]

theorem WellFormed.fsync :
    WellFormed limits cs (f.fsync limits) ∧ SameCurrent f (f.fsync limits) ∧
      ∀ i, (f.fsync limits).stagedChunks.lookup i = none := by
  unfold File.fsync
  split
  case isTrue hempty => exact ⟨h.sealActivePack, ⟨rfl, fun _ => rfl⟩, length_eq_zero.mp hempty⟩
  case isFalse hstaged =>
    have htaken := Taken.of_snapshot h (Nat.pos_of_ne_zero hstaged)
    obtain ⟨hwf, hwritten, hcommit⟩ := htaken.commit h.sealActivePack
    obtain ⟨hwf', hfinish⟩ := hwritten.finish hwf
    refine ⟨hwf', ⟨hfinish.size.trans hcommit.size, fun i => (hfinish.current i).trans (hcommit.current i)⟩, ?_⟩
    intro i
    rw [lookup_finishSync, appendSyncRecords_stagedChunks]
    -- nothing was staged since the snapshot
    show (if (f.stagedChunks.lookup i).isSome ∧ f.stagedChunks.lookup i = f.stagedChunks.lookup i then none
      else f.stagedChunks.lookup i) = none
    cases f.stagedChunks.lookup i <;> simp

end

end Sync

end InClusterStorage.Controller
