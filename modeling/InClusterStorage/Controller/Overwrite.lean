import InClusterStorage.Controller.FileSyncs

/- `CreateFile` on a name that exists. It rewrites the rows of the file and leaves
   alone what is staged, so that the next sync writes the older data over the new
   content. The new content is what is read after a sync exactly if nothing was staged
   (`createFile_replaces_iff`); otherwise not even an empty content is
   (`createFile_resurrects`). -/
namespace InClusterStorage.Controller

open Bytes List File

/-- After `CreateFile` and a sync the file is the new content. -/
def Replaces (limits : Limits) (f : File) (content : List UInt8) : Prop :=
  ((f.createFile limits content).fsync limits).row.size = content.length ∧
    ((f.createFile limits content).fsync limits).readFile limits 0 content.length = content

instance (limits : Limits) (f : File) (content : List UInt8) : Decidable (Replaces limits f content) :=
  inferInstanceAs (Decidable (_ ∧ _))

section Rows

variable {limits : Limits} {f : File} {content : List UInt8}

theorem Limits.chunkSizeOf_pos (limits : Limits) (row : FileRow) : 0 < limits.chunkSizeOf row := by
  unfold chunkSizeOf
  split
  case isTrue h => exact h
  case isFalse => exact limits.volumeChunkSize_pos

theorem readFile_createFile_inline (hsmall : content.length ≤ limits.maxInlineLen) :
    (f.createFile limits content).readFile limits 0 content.length = content := by
  by_cases hempty : content = []
  · subst hempty
    rfl
  have hrow : (f.createFile limits content).row.size = content.length := rfl
  have hpos := length_pos_iff.mpr hempty
  have hload := (f.createFile limits content).getOrLoadInode_loads (by omega)
  have hinline : (f.createFile limits content).inlineData = content := by
    have hlookup : (f.createFile limits content).chunkRows.lookup 0 = some { inlineData := content } := by
      simp only [createFile, if_pos hsmall, if_neg hempty]
      exact AList.lookup_insert _
    exact inlineData_of_lookup hlookup
  unfold readFile
  simp only [hload.row, hload.inlineData, hinline, hrow]
  rw [if_neg (by omega), if_pos hempty, if_neg (by omega)]
  apply ext
  · rw [length_resize]
    omega
  · intro p hp
    rw [length_resize] at hp
    rw [byteAt_resize, if_pos hp, byteAt_slice, if_pos (by omega)]
    congr 1
    omega

theorem lookup_createFile (hlarge : ¬ content.length ≤ limits.maxInlineLen) (i : Nat) :
    (f.createFile limits content).chunkRows.lookup i =
      if i * limits.chunkSizeOf f.row < content.length then
        some { sha256 := some (slice content (i * limits.chunkSizeOf f.row) ((i + 1) * limits.chunkSizeOf f.row)) }
      else none := by
  have hcs := limits.chunkSizeOf_pos f.row
  simp only [createFile, if_neg hlarge]
  generalize limits.chunkSizeOf f.row = cs at hcs
  have hnum : i < (content.length + cs - 1) / cs ↔ i * cs < content.length := by
    rw [Nat.lt_div_iff_mul_lt hcs]
    omega
  rw [Table.lookup_foldl_insert]
  simp only [mem_range, hnum]
  split
  case isTrue => rfl
  case isFalse hout =>
    have hcleared := Table.lookup_foldl_erase (fun i => ¬ i < (content.length + cs - 1) / cs) f.chunkRows.keys
      f.chunkRows i
    simp only [ite_not, hnum, hout, not_false_eq_true, and_true] at hcleared
    rw [hcleared]
    split
    case isTrue => rfl
    case isFalse hnot => simpa [Table.mem_keys] using hnot

theorem readFile_createFile_blobs (hlarge : ¬ content.length ≤ limits.maxInlineLen) :
    (f.createFile limits content).readFile limits 0 content.length = content := by
  have hcs := limits.chunkSizeOf_pos f.row
  have hlookup := lookup_createFile (f := f) hlarge
  have hrow : (f.createFile limits content).row.size = content.length := rfl
  have hsize : (f.createFile limits content).row.chunkSize = limits.chunkSizeOf f.row := rfl
  have hsha : (f.createFile limits content).row.sha256 = none := rfl
  generalize f.createFile limits content = f' at *
  generalize limits.chunkSizeOf f.row = cs at *
  have hblob (i) : f'.blob i =
      if i * cs < content.length then some (slice content (i * cs) ((i + 1) * cs)) else none := by
    have hi := hlookup i
    split at hi
    case isTrue hlt => rw [blob_of_lookup hi, if_pos hlt]
    case isFalse hlt => rw [blob, hi, if_neg hlt]
  have hinline : f'.inlineData = [] := by
    have h0 := hlookup 0
    split at h0
    · exact inlineData_of_lookup h0
    · rw [inlineData, h0]
  -- how much data may be inline does not matter to a file in blobs
  have hrows : RowsOk { limits with maxInlineLen := 0 } cs f' := by
    apply RowsOk.of_blobs hcs (Nat.zero_le _) hsize hsha
    · refine .inr ⟨0, _, (hblob 0).trans (if_pos ?_)⟩
      omega
    · exact hinline
    · intro i d hd
      rw [hblob] at hd
      split at hd
      case isTrue hlt =>
        cases hd
        have hmul : (i + 1) * cs = i * cs + cs := Nat.succ_mul i cs
        have hlen : (slice content (i * cs) ((i + 1) * cs)).length = min ((i + 1) * cs) content.length - i * cs :=
          length_slice
        refine ⟨length_pos_iff.mp (by omega), by omega, by omega⟩
      case isFalse => simp at hd
  have hread := hrows.readFile_eq hrow.symm (fun p hp => ?_) 0 content.length
  · have hall : (if content.length = 0 then content.length else 0 + content.length) = content.length := by
      split <;> omega
    refine hread.trans ?_
    simp [slice]
  · obtain ⟨hsplit, hq⟩ := div_mul_add_mod hcs p
    have hmul : (p / cs + 1) * cs = p / cs * cs + cs := Nat.succ_mul _ cs
    rw [committedByte, committed_of_no_inline hinline, hblob, if_pos (by omega), Option.getD_some,
      byteAt_slice, if_pos (by omega), hsplit]

theorem readFile_createFile : (f.createFile limits content).readFile limits 0 content.length = content := by
  by_cases hsmall : content.length ≤ limits.maxInlineLen
  · exact readFile_createFile_inline hsmall
  · exact readFile_createFile_blobs hsmall

end Rows

/-! What is staged comes back. -/

section Sync

variable {limits : Limits} {f : File}

theorem appendSyncRecords_size (snap : Snapshot) :
    (f.appendSyncRecords limits snap).row.size = max snap.size f.row.size := by
  unfold appendSyncRecords
  simp only
  split <;> rfl

theorem dropCommitted_row (snap : Snapshot) (i : Nat) : (File.dropCommitted snap f i).row = f.row := by
  unfold dropCommitted dropStagedChunk
  split
  · split <;> rfl
  · rfl

theorem finishSync_row (snap : Snapshot) : (f.finishSync snap).row = f.row := by
  unfold finishSync
  generalize snap.chunks.keys = indices
  induction indices generalizing f with
  | nil => rfl
  | cons i indices ih => rw [foldl_cons, ih, dropCommitted_row]

theorem stagedSize_le_fsync (hstaged : f.stagedChunks.entries.length ≠ 0) :
    f.stagedSize.getD 0 ≤ (f.fsync limits).row.size := by
  rw [fsync, if_neg hstaged, finishSync_row, appendSyncRecords_size]
  exact le_max_left _ _

end Sync

/-- **`CreateFile` replaces the file for every new content exactly if nothing was
staged.** -/
theorem createFile_replaces_iff (limits : Limits) (f : File)
    (hsized : f.stagedChunks.entries.length ≠ 0 → 0 < f.stagedSize.getD 0) :
    (∀ content, Replaces limits f content) ↔ f.stagedChunks.entries.length = 0 := by
  constructor
  · intro hall
    by_contra hstaged
    have hsize := (hall []).1
    have hle : f.stagedSize.getD 0 ≤ ((f.createFile limits []).fsync limits).row.size :=
      stagedSize_le_fsync (f := f.createFile limits []) hstaged
    have hpos := hsized hstaged
    rw [length_nil] at hsize
    omega
  · intro hnone content
    have hsync : (f.createFile limits content).fsync limits = (f.createFile limits content).sealActivePack :=
      if_pos hnone
    unfold Replaces
    rw [hsync]
    exact ⟨rfl, readFile_createFile⟩

/-- A file with three staged bytes that is synced before it is overwritten. -/
theorem createFile_replaces_synced :
    ((((Limits.mk 4 2).emptyFile.writeFile ⟨4, 2⟩ ⟨0, [1, 2, 3]⟩).fsync ⟨4, 2⟩).stagedChunks.entries.length ≠ 0 →
        0 < (((Limits.mk 4 2).emptyFile.writeFile ⟨4, 2⟩ ⟨0, [1, 2, 3]⟩).fsync ⟨4, 2⟩).stagedSize.getD 0) ∧
      Replaces ⟨4, 2⟩ (((Limits.mk 4 2).emptyFile.writeFile ⟨4, 2⟩ ⟨0, [1, 2, 3]⟩).fsync ⟨4, 2⟩) [9] :=
  ⟨by decide, (createFile_replaces_iff ⟨4, 2⟩ _ (by decide)).mpr (by decide) [9]⟩

/-- Three bytes are staged, the file is overwritten with one byte and synced: it has
the three staged bytes. -/
theorem createFile_resurrects :
    let f := (Limits.mk 4 2).emptyFile.writeFile ⟨4, 2⟩ ⟨0, [1, 2, 3]⟩
    ¬ Replaces ⟨4, 2⟩ f [9] ∧ ((f.createFile ⟨4, 2⟩ [9]).fsync ⟨4, 2⟩).readFile ⟨4, 2⟩ 0 3 = [1, 2, 3] := by
  decide

end InClusterStorage.Controller
