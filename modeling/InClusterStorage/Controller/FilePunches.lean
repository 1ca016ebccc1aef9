import InClusterStorage.Controller.FileSyncs

/- What `PunchHole` does to a file: it syncs the file, and then zeroes a range of the
   rows. -/
namespace InClusterStorage.Controller

open Bytes List File AList

namespace Punch

/-- The size of a file after a punch. -/
def sizeAfter (p : Punch) (size : Nat) : Nat := if p.keepSize then size else max size p.stop

/-- Where the punch ends in a file of the size. -/
def stopIn (p : Punch) (size : Nat) : Nat := if p.keepSize then min size p.stop else p.stop

variable {p : Punch} {size : Nat}

theorem newSize_eq : (if (!p.keepSize) = true ∧ size < p.stop then p.stop else size) = p.sizeAfter size := by
  unfold sizeAfter
  cases p.keepSize
  · simp only [Bool.not_false, true_and, Bool.false_eq_true, if_false]
    split <;> omega
  · simp

theorem punchEnd_eq : (if p.keepSize = true ∧ size < p.stop then size else p.stop) = p.stopIn size := by
  unfold stopIn
  cases p.keepSize
  · simp
  · simp only [true_and, if_true]
    split <;> omega

theorem le_sizeAfter : size ≤ p.sizeAfter size := by
  unfold sizeAfter
  split <;> omega

theorem stopIn_le : p.stopIn size ≤ p.stop ∧ p.stopIn size ≤ p.sizeAfter size := by
  unfold stopIn sizeAfter
  split <;> omega

/-- What the punch leaves out lies beyond the file. -/
theorem le_of_stopIn_le {q : Nat} (hq : p.stopIn size ≤ q) (hstop : q < p.stop) : size ≤ q := by
  unfold stopIn at hq
  split at hq <;> omega

end Punch

/-- What becomes of the row of chunk `i`: it goes, is zeroed in part, or stays. -/
def File.punched (cs start stop : Nat) (f : File) (i : Nat) (row : Option FileChunk) : Option FileChunk :=
  if f.blob i = none then row
  else if start ≤ i * cs ∧ i * cs + cs ≤ stop then none
  else if start - i * cs < min (stop - i * cs) (f.committed i).length then
    some { sha256 := some (zeroRange (f.committed i) (start - i * cs) (min (stop - i * cs) (f.committed i).length)) }
  else row

/-- The rows of a file with a hole. -/
structure Punches (limits : Limits) (cs : Nat) (p : Punch) (f f' : File) : Prop where
  rows : RowsOk limits cs f'
  frame : f' = { f with row := f'.row, chunkRows := f'.chunkRows }
  rowSize : f'.row.size = p.sizeAfter f.row.size
  bytes : ∀ q, f'.committedByte cs q = if p.offset ≤ q ∧ q < p.stop then 0 else f.committedByte cs q

section Punching

variable {limits : Limits} {cs : Nat} {f : File} {p : Punch} (h : RowsOk limits cs f)
include h

variable {f' : File} {node : CachedInode}

theorem RowsOk.punched_bytes
    (hbytes : ∀ q, f'.committedByte cs q =
      if p.offset ≤ q ∧ q < p.stopIn f.row.size then 0 else f.committedByte cs q) (q : Nat) :
    f'.committedByte cs q = if p.offset ≤ q ∧ q < p.stop then 0 else f.committedByte cs q := by
  have hle : p.stopIn f.row.size ≤ p.stop := Punch.stopIn_le.1
  rw [hbytes]
  split_ifs with hin hout hout
  · rfl
  · omega
  · exact h.committedByte_eq_zero (Punch.le_of_stopIn_le (by omega) hout.2)
  · rfl

theorem RowsOk.inline_length_le (hinline : f.inlineData ≠ []) : f.inlineData.length ≤ f.row.size := by
  have hfits := h.fits 0 (by rwa [committed_zero hinline])
  rw [committed_zero hinline] at hfits
  omega

section

variable (hwork : ¬ (p.keepSize = true ∧ f.row.size ≤ p.offset))
include hwork

theorem punches_inline (hinline : f.inlineData ≠ [])
    (hsmall : p.sizeAfter f.row.size ≤ limits.maxInlineLen) : Punches limits cs p f (f.punchRows limits p) := by
  have hload := h.loaded_getOrLoadInode.ensureInodeChunksLoaded
  have hlen := h.inline_length_le hinline
  have hsize : f.row.size ≤ p.sizeAfter f.row.size := Punch.le_sizeAfter
  generalize hf' : f.punchRows limits p = f'
  simp only [punchRows, if_neg hwork, hload.inlineData, if_pos hinline, Punch.newSize_eq, Punch.punchEnd_eq,
    if_pos hsmall] at hf'
  -- filled up with zeros, the data is as long as the file and reads the same
  generalize hgrown : (if f.inlineData.length < p.sizeAfter f.row.size then
    resize (p.sizeAfter f.row.size) f.inlineData else f.inlineData) = grown at hf'
  have hlength : grown.length = p.sizeAfter f.row.size := by
    rw [← hgrown]
    split
    · exact length_resize
    · omega
  have hbyte (q) : byteAt grown q = byteAt f.inlineData q := by
    rw [← hgrown]
    split
    case isTrue hlt =>
      rw [byteAt_resize]
      split
      · rfl
      · rw [byteAt_of_length_le (by omega)]
    case isFalse => rfl
  have hzero : f'.chunkRows.lookup 0 = some { inlineData := zeroRange grown p.offset (p.stopIn f.row.size) } := by
    rw [← hf']
    exact lookup_insert _
  have hinline' : f'.inlineData = zeroRange grown p.offset (p.stopIn f.row.size) := inlineData_of_lookup hzero
  have hlength' : f'.inlineData.length = p.sizeAfter f.row.size := by rw [hinline', length_zeroRange, hlength]
  have hne : f'.inlineData ≠ [] := by
    apply length_pos_iff.mp
    have := length_pos_iff.mpr hinline
    omega
  have hrow : f'.row.size = p.sizeAfter f.row.size := by rw [← hf']
  have hrows : RowsOk limits cs f' := by
    apply RowsOk.of_inline h.pos h.maxInline (by rw [← hf']; exact h.chunkSize) (by rw [← hf']) hne
    · omega
    · omega
    · intro i
      by_cases hi : i = 0
      · rw [hi]
        exact blob_of_inline hzero
      · rw [← (h.inline hinline).2 i]
        apply blob_congr
        rw [← hf']
        exact lookup_insert_ne hi
  refine ⟨hrows, by rw [← hf'], hrow, h.punched_bytes ?_⟩
  intro q
  rw [← hrows.byteAt_inline hne, hinline', byteAt_zeroRange, hbyte, h.byteAt_inline hinline]

/-- Inline data of a file that grows too large for it. -/
theorem punches_inline_moved (hinline : f.inlineData ≠ [])
    (hlarge : ¬ p.sizeAfter f.row.size ≤ limits.maxInlineLen) : Punches limits cs p f (f.punchRows limits p) := by
  have hload := h.loaded_getOrLoadInode.ensureInodeChunksLoaded
  have hlen := h.inline_length_le hinline
  have hshort := h.short 0
  rw [committed_zero hinline] at hshort
  have hsize : f.row.size ≤ p.sizeAfter f.row.size := Punch.le_sizeAfter
  generalize hf' : f.punchRows limits p = f'
  simp only [punchRows, if_neg hwork, hload.inlineData, if_pos hinline, Punch.newSize_eq, Punch.punchEnd_eq,
    if_neg hlarge, h.chunkSizeOf, min_eq_left hshort] at hf'
  generalize hchunk : (zeroRange (resize cs f.inlineData) p.offset (p.stopIn f.row.size)).take f.inlineData.length =
    chunk0 at hf'
  have hlength : chunk0.length = f.inlineData.length := by
    rw [← hchunk, length_take, length_zeroRange, length_resize]
    omega
  have hbyte (q) : byteAt chunk0 q =
      if p.offset ≤ q ∧ q < p.stopIn f.row.size then 0 else byteAt f.inlineData q := by
    rw [← hchunk, byteAt_take, byteAt_zeroRange, byteAt_resize]
    split_ifs with h₁ h₂ h₃ h₂
    · rfl
    · rfl
    · omega
    · rfl
    · rw [byteAt_of_length_le (by omega)]
  have hzero : f'.chunkRows.lookup 0 = some { sha256 := some chunk0 } := by
    rw [← hf']
    exact lookup_insert _
  have hblob (i) (hi : i ≠ 0) : f'.blob i = none := by
    rw [← (h.inline hinline).2 i]
    apply blob_congr
    rw [← hf']
    exact lookup_insert_ne hi
  have hinline' : f'.inlineData = [] := inlineData_of_lookup hzero
  have hrows : RowsOk limits cs f' := by
    apply RowsOk.of_blobs h.pos h.maxInline (by rw [← hf']) (by rw [← hf']) (.inl (by rw [← hf'])) hinline'
    intro i d hd
    by_cases hi : i = 0
    · subst hi
      rw [blob_of_lookup hzero] at hd
      cases hd
      have hpositive := length_pos_iff.mpr hinline
      refine ⟨length_pos_iff.mp (by omega), by omega, ?_⟩
      rw [← hf']
      show 0 * cs + chunk0.length ≤ p.sizeAfter f.row.size
      omega
    · rw [hblob i hi] at hd
      simp at hd
  refine ⟨hrows, by rw [← hf'], by rw [← hf'], h.punched_bytes ?_⟩
  intro q
  have hsplit := div_mul_add_mod h.pos q
  rw [← h.byteAt_inline hinline, ← hbyte, committedByte]
  by_cases hi : q / cs = 0
  · rw [hi] at hsplit ⊢
    rw [committed_of_no_inline hinline', blob_of_lookup hzero]
    congr 1
    omega
  · have hone := Nat.mul_le_mul_right cs (Nat.pos_of_ne_zero hi)
    rw [committed_of_ne hi, hblob _ hi, byteAt_of_length_le (by omega : chunk0.length ≤ q)]
    rfl

end

section

variable (hload : Loaded f node)
include hload

theorem RowsOk.lookup_punchChunk (start stop : Nat)
    (rows : AList fun _ : Nat => FileChunk) (i j : Nat) :
    (f.punchChunk cs start stop node rows i).lookup j =
      if j = i then f.punched cs start stop i (rows.lookup i) else rows.lookup j := by
  simp only [punchChunk, punched, hload.chunks, (h.readChunk hload i).2, Option.isNone_iff_eq_none]
  by_cases hj : j = i
  · subst hj
    rw [if_pos rfl]
    split_ifs
    · rfl
    · exact lookup_erase j rows
    · exact lookup_insert rows
    · rfl
  · rw [if_neg hj]
    split_ifs
    · rfl
    · exact lookup_erase_ne hj
    · exact lookup_insert_ne hj
    · rfl

variable {start stop : Nat}
  (hf' : f'.chunkRows = (chunkRange cs start stop).foldl (f.punchChunk cs start stop node) f.chunkRows)
include hf'

theorem RowsOk.lookup_punched (i : Nat) :
    f'.chunkRows.lookup i =
      if i ∈ chunkRange cs start stop then f.punched cs start stop i (f.chunkRows.lookup i)
      else f.chunkRows.lookup i := by
  rw [hf']
  exact Table.foldl_at (fun (rows : AList fun _ : Nat => FileChunk) i => rows.lookup i)
    (h.lookup_punchChunk hload start stop) (chunkRange_nodup cs start stop) f.chunkRows i

theorem RowsOk.inlineData_punched (hinline : f.inlineData = []) : f'.inlineData = [] := by
  have hzero := h.lookup_punched hload hf' 0
  unfold punched at hzero
  split_ifs at hzero
  · rw [inlineData_congr hzero, hinline]
  · rw [inlineData, hzero]
  · exact inlineData_of_lookup hzero
  · rw [inlineData_congr hzero, hinline]
  · rw [inlineData_congr hzero, hinline]

theorem RowsOk.blob_punched (hlt : start < stop) (hinline : f.inlineData = []) (i : Nat) :
    (∀ d, f'.blob i = some d → d ≠ [] ∧ d.length = (f.committed i).length) ∧
      ∀ q, q < cs → byteAt ((f'.blob i).getD []) q =
        if start ≤ i * cs + q ∧ i * cs + q < stop then 0 else byteAt (f.committed i) q := by
  have hshort := h.short i
  have hmem := mem_chunkRange h.pos hlt (i := i)
  have hread := h.lookup_punched hload hf' i
  cases hb : f.blob i with
  | none =>
    have hsame : f'.chunkRows.lookup i = f.chunkRows.lookup i := by
      rw [hread, punched, if_pos hb]
      exact ite_self _
    have hnil : f.committed i = [] := by
      rw [committed_of_no_inline hinline, hb]
      rfl
    rw [blob_congr hsame, hb, hnil]
    refine ⟨fun d hd => absurd hd (by simp), fun q _ => ?_⟩
    exact (ite_self _).symm
  | some d =>
    have hd : f.committed i = d := h.committed_of_blob hb
    have hne := h.blobs i d hb
    rw [hd] at hshort ⊢
    simp only [punched, hb, hd, reduceCtorEq, if_false] at hread
    by_cases hin : i ∈ chunkRange cs start stop
    · rw [if_pos hin] at hread
      split_ifs at hread with hcovered hoverlap
      · -- covered as a whole
        have hnone : f'.blob i = none := by rw [blob, hread]
        rw [hnone]
        refine ⟨fun d hd => absurd hd (by simp), fun q hq => ?_⟩
        rw [if_pos (by omega)]
        rfl
      · rw [blob_of_lookup hread]
        refine ⟨fun d' hd' => ?_, fun q hq => ?_⟩
        · cases hd'
          have hpositive := length_pos_iff.mpr hne
          refine ⟨length_pos_iff.mp ?_, length_zeroRange⟩
          rwa [length_zeroRange]
        · show byteAt (zeroRange d _ _) q = _
          rw [byteAt_zeroRange]
          split_ifs with h₁ h₂ h₂
          · rfl
          · omega
          · rw [byteAt_of_length_le (by omega)]
          · rfl
      · -- the chunk ends before the range
        rw [blob_congr hread, hb]
        refine ⟨fun d' hd' => Option.some.inj hd' ▸ ⟨hne, rfl⟩, fun q hq => ?_⟩
        show byteAt d q = _
        split
        · rw [byteAt_of_length_le (by omega)]
        · rfl
    · rw [if_neg hin] at hread
      rw [hmem] at hin
      rw [blob_congr hread, hb]
      refine ⟨fun d' hd' => Option.some.inj hd' ▸ ⟨hne, rfl⟩, fun q hq => ?_⟩
      rw [if_neg (by omega)]
      rfl

end

theorem punches_blobs (hpos : 0 < p.length) (hwork : ¬ (p.keepSize = true ∧ f.row.size ≤ p.offset))
    (hinline : f.inlineData = []) : Punches limits cs p f (f.punchRows limits p) := by
  have hload := h.loaded_getOrLoadInode.ensureInodeChunksLoaded
  have hlt : p.offset < p.stopIn f.row.size := by
    simp only [Punch.stopIn, Punch.stop] at hwork ⊢
    split
    case isTrue hkeep =>
      have hin : ¬ f.row.size ≤ p.offset := fun hle => hwork ⟨hkeep, hle⟩
      omega
    case isFalse => omega
  have hsize : f.row.size ≤ p.sizeAfter f.row.size := Punch.le_sizeAfter
  generalize hf' : f.punchRows limits p = f'
  simp only [punchRows, if_neg hwork, hload.inlineData, hinline, ne_eq, not_true_eq_false, if_false,
    Punch.newSize_eq, Punch.punchEnd_eq, h.chunkSizeOf, if_pos hlt] at hf'
  generalize f.ensureInodeChunksLoaded f.getOrLoadInode = node at hload hf'
  have hrows : f'.chunkRows = (chunkRange cs p.offset (p.stopIn f.row.size)).foldl
      (f.punchChunk cs p.offset (p.stopIn f.row.size) node) f.chunkRows := by rw [← hf']
  have hblob := h.blob_punched hload hrows hlt hinline
  have hinline' := h.inlineData_punched hload hrows hinline
  refine ⟨?_, by rw [← hf'], by rw [← hf'], h.punched_bytes ?_⟩
  · apply RowsOk.of_blobs h.pos h.maxInline (by rw [← hf']) (by rw [← hf']) (.inl (by rw [← hf'])) hinline'
    intro i d hd
    obtain ⟨hne, hlen⟩ := (hblob i).1 d hd
    have hshort := h.short i
    have hfits := h.committed_length_le i
    have hpositive := length_pos_iff.mpr hne
    refine ⟨hne, by omega, ?_⟩
    rw [← hf']
    show i * cs + d.length ≤ p.sizeAfter f.row.size
    omega
  · intro q
    obtain ⟨hsplit, hq⟩ := div_mul_add_mod h.pos q
    rw [committedByte, committed_of_no_inline hinline', (hblob _).2 _ hq, hsplit, committedByte]

theorem punches (hpos : 0 < p.length) : Punches limits cs p f (f.punchRows limits p) := by
  by_cases hwork : p.keepSize = true ∧ f.row.size ≤ p.offset
  · have hsame : f.punchRows limits p = f := by simp only [punchRows, if_pos hwork]
    rw [hsame]
    refine ⟨h, rfl, ?_, ?_⟩
    · rw [Punch.sizeAfter, if_pos hwork.1]
    · intro q
      split
      case isTrue hq => exact h.committedByte_eq_zero (by omega)
      case isFalse => rfl
  by_cases hinline : f.inlineData = []
  · exact punches_blobs h hpos hwork hinline
  by_cases hsmall : p.sizeAfter f.row.size ≤ limits.maxInlineLen
  · exact punches_inline h hwork hinline hsmall
  · exact punches_inline_moved h hwork hinline hsmall

end Punching

theorem WellFormed.punchHole {limits : Limits} {cs : Nat} {f : File} {p : Punch} (h : WellFormed limits cs f)
    (hpos : 0 < p.length) :
    WellFormed limits cs (f.punchHole limits p) ∧ (f.punchHole limits p).size = p.sizeAfter f.size ∧
      ∀ q, (f.punchHole limits p).currentByte cs q = if p.offset ≤ q ∧ q < p.stop then 0 else f.currentByte cs q := by
  obtain ⟨hwf, hsame, hnone⟩ := h.fsync
  have hp : f.punchHole limits p = (f.fsync limits).punchRows limits p := by
    rw [File.punchHole, if_neg (by omega)]
  rw [hp]
  have hpunch := punches hwf.rows hpos
  generalize f.fsync limits = g at hwf hsame hnone hpunch
  generalize g.punchRows limits p = f' at hpunch ⊢
  have hnone' (i) : f'.stagedChunks.lookup i = none := by
    rw [hpunch.frame]
    exact hnone i
  have hsize : f'.stagedSize = none := by
    rw [hpunch.frame]
    exact hwf.stagedSize_eq_none hnone
  have hsize' : f.size = g.row.size := by
    rw [← hsame.size, size, hwf.stagedSize_eq_none hnone]
    rfl
  refine ⟨WellFormed.of_rows hpunch.rows hnone' hsize, ?_, ?_⟩
  · rw [size, hsize, hsize']
    exact hpunch.rowSize
  · intro q
    rw [currentByte_eq_committedByte hnone', hpunch.bytes, ← currentByte_eq_committedByte hnone, hsame.currentByte]

end InClusterStorage.Controller
