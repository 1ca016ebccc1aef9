import InClusterStorage.Controller.FileSyncs

/- What `TruncateFile` does to a file: it cuts the staged chunks in one critical
   section and the rows in another. -/
namespace InClusterStorage.Controller

open Bytes Table List Option File

/-! Cutting the staged chunks. -/

/-- The staged chunks of a file that is cut to the size. -/
structure Cuts (cs size : Nat) (f f' : File) : Prop where
  frame : f' = { f with stagedChunks := f'.stagedChunks, stagedSize := f'.stagedSize }
  left : ∀ i r', f'.stagedChunks.lookup i = some r' →
    i * cs < size ∧ ∃ r, f.stagedChunks.lookup i = some r ∧ r'.data = r.data.take (size - i * cs) ∧
      (r' = r ∨ r'.packID = f.packID)
  kept : ∀ i r, f.stagedChunks.lookup i = some r → i * cs < size → (f'.stagedChunks.lookup i).isSome
  sized : f'.stagedSize.isSome ↔ ∃ i r, f'.stagedChunks.lookup i = some r
  size : ∀ s, f'.stagedSize = some s → s = size

namespace File

theorem restaged_truncateStagedChunk {cs : Nat} {size : Int} {f : File} (h : f.Sized) (i : Nat) :
    Restaged f (truncateStagedChunk cs size f i) := by
  unfold truncateStagedChunk
  cases hs : f.stagedChunks.lookup i with
  | none => exact Restaged.refl h
  | some r =>
    simp only
    split
    · exact restaged_dropStagedChunk h i
    split
    · exact restaged_setStagedChunk h hs _
    · exact Restaged.refl h

/-- What is left of a staged chunk. -/
def cutChunk (cs size packID i : Nat) (r : StagedChunkReference) : Option StagedChunkReference :=
  if size ≤ i * cs then none
  else if size < i * cs + cs ∧ size - i * cs < r.data.length then
    some { packID, data := r.data.take (size - i * cs) }
  else some r

theorem lookup_truncateStagedChunk (cs size : Nat) (f : File) (i j : Nat) :
    (truncateStagedChunk cs size f i).stagedChunks.lookup j =
      if j = i then (f.stagedChunks.lookup i).bind (cutChunk cs size f.packID i) else f.stagedChunks.lookup j := by
  unfold truncateStagedChunk
  cases hs : f.stagedChunks.lookup i with
  | none =>
    simp only [bind_none]
    split
    case isTrue hj => rw [hj, hs]
    case isFalse => rfl
  | some r =>
    have hmul : (i + 1) * cs = i * cs + cs := Nat.succ_mul i cs
    have hcast : (i : Int) * cs = ((i * cs : Nat) : Int) := by push_cast; rfl
    have hcast' : ((i : Int) + 1) * cs = ((i * cs + cs : Nat) : Int) := by rw [← hmul]; push_cast; rfl
    have hkeep : ((size : Int) - (i * cs : Nat)).toNat = size - i * cs := by omega
    simp only [bind_some, cutChunk, hcast, hcast', Int.ofNat_le, Int.ofNat_lt, hkeep]
    by_cases hgone : size ≤ i * cs
    · rw [if_pos hgone, if_pos hgone, lookup_dropStagedChunk]
    rw [if_neg hgone, if_neg hgone]
    by_cases hcut : size < i * cs + cs ∧ size - i * cs < r.data.length
    · rw [if_pos hcut, if_pos hcut]
      exact lookup_insert _ _ _ _
    · rw [if_neg hcut, if_neg hcut]
      split
      case isTrue hj => rw [hj, hs]
      case isFalse => rfl

theorem truncateStagedChunk_packID (cs : Nat) (size : Int) (f : File) (i : Nat) :
    (truncateStagedChunk cs size f i).packID = f.packID := by
  unfold truncateStagedChunk dropStagedChunk
  cases f.stagedChunks.lookup i with
  | none => rfl
  | some r =>
    simp only
    split
    · rfl
    split <;> rfl

theorem lookup_truncateStagedChunks (cs size : Nat) (f : File) {keys : List Nat} (hkeys : keys.Nodup) (j : Nat) :
    (keys.foldl (truncateStagedChunk cs size) f).stagedChunks.lookup j =
      if j ∈ keys then (f.stagedChunks.lookup j).bind (cutChunk cs size f.packID j) else f.stagedChunks.lookup j := by
  let read (f : File) (i : Nat) := (f.packID, f.stagedChunks.lookup i)
  let change (i : Nat) (old : Nat × Option StagedChunkReference) := (old.1, old.2.bind (cutChunk cs size old.1 i))
  have hstep : ∀ (f : File) i j,
      read (truncateStagedChunk cs size f i) j = if j = i then change i (read f i) else read f j := by
    intro f i j
    simp only [read, change, truncateStagedChunk_packID, lookup_truncateStagedChunk]
    split <;> rfl
  have hread := congrArg Prod.snd (foldl_at read hstep hkeys f j)
  simp only [read, change] at hread
  rw [hread]
  split <;> rfl

theorem lookup_truncateStaged (limits : Limits) (f : File) (size j : Nat) :
    (f.truncateStaged limits size).stagedChunks.lookup j =
      (f.stagedChunks.lookup j).bind (cutChunk limits.volumeChunkSize size f.packID j) := by
  unfold truncateStaged
  split
  case isTrue hempty =>
    rw [length_eq_zero.mp hempty j]
    rfl
  case isFalse =>
    have hlookup : (f.stagedChunks.keys.foldl (truncateStagedChunk limits.volumeChunkSize size) f).stagedChunks.lookup j =
        (f.stagedChunks.lookup j).bind (cutChunk limits.volumeChunkSize size f.packID j) := by
      rw [lookup_truncateStagedChunks _ size f f.stagedChunks.keys_nodup]
      cases hl : f.stagedChunks.lookup j with
      | none => exact ite_self _
      | some r => exact if_pos (mem_keys.mpr (isSome_of_eq_some hl))
    simp only
    split <;> exact hlookup

/-- What stays staged has the new size; nothing else of the file changes. -/
theorem truncateStaged_sized {f : File} (limits : Limits) (h : f.Sized) (size : Int) :
    (f.truncateStaged limits size = { f with
      stagedChunks := (f.truncateStaged limits size).stagedChunks
      stagedSize := (f.truncateStaged limits size).stagedSize }) ∧
      (f.truncateStaged limits size).Sized ∧ ∀ s, (f.truncateStaged limits size).stagedSize = some s → s = size.toNat := by
  have hre : Restaged f (f.stagedChunks.keys.foldl (truncateStagedChunk limits.volumeChunkSize size) f) :=
    Restaged.foldl (fun _ hg i => restaged_truncateStagedChunk hg i) h f.stagedChunks.keys
  unfold truncateStaged
  split
  case isTrue hempty => exact ⟨rfl, h, fun s hs => absurd ((stagedSize_eq_none h hempty).symm.trans hs) (by simp)⟩
  case isFalse =>
    generalize f.stagedChunks.keys.foldl (truncateStagedChunk limits.volumeChunkSize size) f = cut at hre ⊢
    simp only
    split_ifs with hleft
    · exact ⟨hre.frame, hre.sized, fun s hs => absurd ((stagedSize_eq_none hre.sized hleft).symm.trans hs) (by simp)⟩
    · refine ⟨?_, ?_, fun s hs => (some.inj hs).symm⟩
      · rw [hre.frame]
      · exact ⟨fun _ => length_pos.mp (Nat.pos_of_ne_zero hleft), fun _ => rfl⟩

/-- The first section of `TruncateFile`, which takes the chunk size from the volume. -/
theorem cuts_truncateStaged {limits : Limits} {cs : Nat} {f : File} (h : StagedOk cs f) {size : Nat}
    (hcs : ∀ i r, f.stagedChunks.lookup i = some r →
      cutChunk limits.volumeChunkSize size f.packID i r = cutChunk cs size f.packID i r) :
    Cuts cs size f (f.truncateStaged limits size) := by
  have hlookup (i) : (f.truncateStaged limits size).stagedChunks.lookup i =
      (f.stagedChunks.lookup i).bind (cutChunk cs size f.packID i) := by
    rw [lookup_truncateStaged]
    exact bind_congr (hcs i)
  have hframe := truncateStaged_sized limits h.sized size
  generalize f.truncateStaged limits size = f' at hlookup hframe ⊢
  refine ⟨hframe.1, ?_, ?_, hframe.2.1, hframe.2.2⟩
  · intro i r' hr'
    rw [hlookup, bind_eq_some_iff] at hr'
    obtain ⟨r, hr, hcut⟩ := hr'
    unfold cutChunk at hcut
    have hshort := h.short i r hr
    split at hcut
    · simp at hcut
    case isFalse hlt =>
      refine ⟨by omega, r, hr, ?_⟩
      split at hcut <;> cases hcut
      · exact ⟨rfl, .inr rfl⟩
      · exact ⟨(take_of_length_le (by omega)).symm, .inl rfl⟩
  · intro i r hr hlt
    rw [hlookup, hr, bind_some, cutChunk, if_neg (by omega)]
    split <;> rfl

end File

/-! Cutting the rows. -/

/-- The rows of a file that is cut to the size, or filled up with zeros. -/
structure Truncates (limits : Limits) (cs size : Nat) (f f' : File) : Prop where
  rows : RowsOk limits cs f'
  frame : f' = { f with row := f'.row, chunkRows := f'.chunkRows }
  rowSize : f'.row.size = size
  inline : f'.inlineData ≠ [] → size ≤ limits.maxInlineLen ∨ f.inlineData ≠ []
  bytes : ∀ p, f'.committedByte cs p = if p < size then f.committedByte cs p else 0

theorem committedByte_take {cs size : Nat} (hcs : 0 < cs) {f f' : File}
    (h : ∀ i, f'.committed i = (f.committed i).take (size - i * cs)) (p : Nat) :
    f'.committedByte cs p = if p < size then f.committedByte cs p else 0 := by
  have hsplit := div_mul_add_mod hcs p
  rw [committedByte, h, byteAt_take, committedByte]
  split_ifs <;> first | rfl | omega

theorem Loaded.mem_keys {f : File} {node : CachedInode} (hload : Loaded f node) {i : Nat} :
    i ∈ node.chunks.keys ↔ (f.blob i).isSome := by
  rw [Table.mem_keys, hload.chunks]

section Rows

variable {limits : Limits} {cs : Nat} {f : File} (h : RowsOk limits cs f)
include h

theorem truncates_zero : Truncates limits cs 0 f (f.truncateRows limits 0) := by
  have hload := h.loaded_getOrLoadInode.ensureInodeChunksLoaded
  generalize hf' : f.truncateRows limits 0 = f'
  simp only [truncateRows, if_true] at hf'
  generalize f.ensureInodeChunksLoaded f.getOrLoadInode = node at hload hf'
  have hempty : f'.inlineData = [] ∧ ∀ i, f'.blob i = none := by
    by_cases hchunks : node.chunks.entries.length = 0
    · have hnone (i) : f.blob i = none := by
        rw [← hload.chunks i]
        exact length_eq_zero.mp hchunks i
      have hlookup (i) : f'.chunkRows.lookup i = if i = 0 then none else f.chunkRows.lookup i := by
        rw [← hf', if_pos hchunks]
        exact lookup_erase 0 f.chunkRows i
      refine ⟨inlineData_of_erase (hlookup 0), fun i => ?_⟩
      rw [blob_of_erase (hlookup i), hnone i]
      exact ite_self _
    · obtain ⟨j, d, hd⟩ := length_pos.mp (Nat.pos_of_ne_zero hchunks)
      rw [hload.chunks] at hd
      have hinline : f.inlineData = [] := by
        by_contra hne
        rw [(h.inline hne).2 j] at hd
        simp at hd
      have hlookup (i) : f'.chunkRows.lookup i = if (f.blob i).isSome then none else f.chunkRows.lookup i := by
        rw [← hf', if_neg hchunks]
        have herase := lookup_foldl_erase (fun _ => True) node.chunks.keys f.chunkRows i
        simp only [if_true, and_true, hload.mem_keys] at herase
        exact herase
      refine ⟨?_, fun i => ?_⟩
      · rw [inlineData_of_erase (hlookup 0), hinline]
        exact ite_self _
      · rw [blob_of_erase (hlookup i)]
        cases f.blob i <;> rfl
  have hcommitted (i) : f'.committed i = [] := by
    rw [committed_of_no_inline hempty.1, hempty.2 i]
    rfl
  constructor
  case rows =>
    apply RowsOk.of_blobs h.pos h.maxInline (by rw [← hf']; exact h.chunkSize) (by rw [← hf'])
        (.inl (by rw [← hf'])) hempty.1
    intro i d hd
    rw [hempty.2 i] at hd
    simp at hd
  case frame => rw [← hf']
  case rowSize => rw [← hf']
  case inline => exact fun hne => absurd hempty.1 hne
  case bytes =>
    apply committedByte_take h.pos
    intro i
    rw [hcommitted i, Nat.zero_sub, take_zero]

/-- Cut to the size, the file is inline. -/
abbrev FitsInline (limits : Limits) (size : Nat) (f : File) : Prop :=
  size ≤ limits.maxInlineLen ∧ (f.ensureInodeChunksLoaded f.getOrLoadInode).chunks.entries.length ≤ 1

variable {size : Nat}

omit h in
/-- The rows of a file that is inline once it is cut: chunk 0 alone is left. -/
theorem Readable.truncateRows_fits (h : Readable cs f) (hloaded : Loaded f f.getOrLoadInode) (hpos : size ≠ 0)
    (hsmall : FitsInline limits size f) {f' : File} (hf' : f.truncateRows limits size = f') :
    f' = { f with
      row := { f.row with size, sha256 := none, contentSha256 := none }, chunkRows := f'.chunkRows } ∧
      f'.inlineData = resize size (f.committed 0) ∧ ∀ i, f'.blob i = none := by
  have hload := hloaded.ensureInodeChunksLoaded
  simp only [truncateRows, if_neg hpos, if_pos hsmall, (h.readChunk hload 0).2] at hf'
  generalize f.ensureInodeChunksLoaded f.getOrLoadInode = node at hload hf'
  have hzero : f'.chunkRows.lookup 0 = some { inlineData := resize size (f.committed 0) } := by
    rw [← hf']
    exact AList.lookup_insert _
  have hothers (i) (hi : i ≠ 0) : f'.chunkRows.lookup i = if (f.blob i).isSome then none else f.chunkRows.lookup i := by
    rw [← hf']
    have herase := lookup_foldl_erase (fun i => i ≠ 0) node.chunks.keys f.chunkRows i
    simp only [hload.mem_keys, hi, ne_eq, not_false_eq_true, and_true] at herase
    exact (AList.lookup_insert_ne hi).trans herase
  refine ⟨by rw [← hf'], inlineData_of_lookup hzero, fun i => ?_⟩
  by_cases hi : i = 0
  · rw [hi]
    exact blob_of_inline hzero
  · rw [blob_of_erase (hothers i hi)]
    cases f.blob i <;> rfl

theorem truncates_inline (hpos : size ≠ 0) (hsmall : FitsInline limits size f) :
    Truncates limits cs size f (f.truncateRows limits size) := by
  have hmax := h.maxInline
  generalize hf' : f.truncateRows limits size = f'
  obtain ⟨hframe, hinline, hblob⟩ := h.readable.truncateRows_fits h.loaded_getOrLoadInode hpos hsmall hf'
  have hlen : f'.inlineData.length = size := by rw [hinline, length_resize]
  have hne : f'.inlineData ≠ [] := by
    apply length_pos_iff.mp
    omega
  have hrow : f'.row.size = size := by rw [hframe]
  have hrows : RowsOk limits cs f' := by
    apply RowsOk.of_inline h.pos hmax (by rw [hframe]; exact h.chunkSize) (by rw [hframe]) hne
    · omega
    · omega
    · exact hblob
  refine ⟨hrows, by rw [hframe], hrow, fun _ => .inl hsmall.1, ?_⟩
  intro p
  rw [← hrows.byteAt_inline hne, hinline, byteAt_resize]
  split
  case isTrue hp =>
    rw [committedByte, Nat.div_eq_of_lt (by omega), Nat.mod_eq_of_lt (by omega)]
  case isFalse => rfl

theorem RowsOk.exists_last (hpos : size ≠ 0) :
    ∃ last, (size + cs - 1) / cs = last + 1 ∧ last * cs < size ∧ size ≤ last * cs + cs ∧
      ∀ i, (size + cs - 1) / cs ≤ i ↔ size ≤ i * cs := by
  have hcs := h.pos
  have hle (i) : (size + cs - 1) / cs ≤ i ↔ size ≤ i * cs := by
    rw [← Nat.lt_succ_iff, Nat.div_lt_iff_lt_mul hcs, Nat.succ_mul]
    omega
  have hne : (size + cs - 1) / cs ≠ 0 := by
    intro hzero
    have := (hle 0).mp (le_of_eq hzero)
    omega
  obtain ⟨last, hlast⟩ := Nat.exists_eq_succ_of_ne_zero hne
  have hbegin := hle last
  have hend := hle (last + 1)
  rw [Nat.succ_mul] at hend
  exact ⟨last, hlast, by omega, by omega, hle⟩

theorem RowsOk.lookup_truncateRows (hpos : size ≠ 0) (hlarge : ¬ FitsInline limits size f) :
    ∃ last, last * cs < size ∧ size ≤ last * cs + cs ∧
      (∃ rows, f.truncateRows limits size = { f with
        row := { f.row with size, chunkSize := cs, sha256 := none, contentSha256 := none }, chunkRows := rows }) ∧
      ∀ i, (f.truncateRows limits size).chunkRows.lookup i =
        if i = last ∧ (size < f.row.size ∧ (f.blob last).isSome) ∧ size - last * cs < (f.committed last).length then
          some { sha256 := some ((f.committed last).take (size - last * cs)) }
        else if (f.blob i).isSome ∧ size ≤ i * cs then none else f.chunkRows.lookup i := by
  have hload := h.loaded_getOrLoadInode.ensureInodeChunksLoaded
  obtain ⟨last, hlast, hbegin, hend, hbeyond⟩ := h.exists_last hpos
  have hread := (h.readChunk hload last).2
  refine ⟨last, hbegin, hend, ?_, ?_⟩
  · simp only [truncateRows, if_neg hpos, if_neg hlarge, h.chunkSizeOf]
    exact ⟨_, rfl⟩
  · intro i
    have herase := lookup_foldl_erase (fun i => last + 1 ≤ i)
      (f.ensureInodeChunksLoaded f.getOrLoadInode).chunks.keys f.chunkRows i
    rw [hlast] at hbeyond
    simp only [hload.mem_keys, hbeyond] at herase
    simp only [truncateRows, if_neg hpos, if_neg hlarge, h.chunkSizeOf, hlast, Nat.add_sub_cancel, Nat.succ_pos,
      true_and, hload.chunks, hread, hbeyond]
    by_cases hcut : (size < f.row.size ∧ (f.blob last).isSome) ∧ size - last * cs < (f.committed last).length
    · rw [if_pos hcut, lookup_insert, herase]
      simp only [hcut, and_self, and_true]
    · rw [if_neg hcut, herase]
      simp only [hcut, and_false, if_false]

theorem truncates_inline_kept (hpos : size ≠ 0) (hinline : f.inlineData ≠ []) (hlarge : ¬ FitsInline limits size f) :
    Truncates limits cs size f (f.truncateRows limits size) := by
  have hload := h.loaded_getOrLoadInode.ensureInodeChunksLoaded
  obtain ⟨hlen, hblob⟩ := h.inline hinline
  have hsize : limits.maxInlineLen < size := by
    by_contra hle
    apply hlarge
    refine ⟨by omega, ?_⟩
    rw [length_eq_zero.mpr fun i => (hload.chunks i).trans (hblob i)]
    exact Nat.zero_le 1
  obtain ⟨last, _, _, ⟨rows, hf'⟩, hlookup⟩ := h.lookup_truncateRows hpos hlarge
  generalize f.truncateRows limits size = f' at hf' hlookup ⊢
  simp only [hblob, isSome_none, Bool.false_eq_true, and_false, false_and, if_false] at hlookup
  have hinline' : f'.inlineData = f.inlineData := inlineData_congr (hlookup 0)
  have hrows : RowsOk limits cs f' := by
    apply RowsOk.of_inline h.pos h.maxInline (by rw [hf']) (by rw [hf'])
    · rwa [hinline']
    · rwa [hinline']
    · rw [hinline', hf']
      show f.inlineData.length ≤ size
      omega
    · intro i
      rw [blob_congr (hlookup i), hblob i]
  refine ⟨hrows, by rw [hf'], by rw [hf'], fun _ => .inr hinline, ?_⟩
  intro p
  rw [← hrows.byteAt_inline (by rwa [hinline']), hinline', h.byteAt_inline hinline]
  split
  case isTrue => rfl
  case isFalse hp =>
    rw [← h.byteAt_inline hinline]
    apply byteAt_of_length_le
    omega

theorem truncates_blobs (hpos : size ≠ 0) (hinline : f.inlineData = []) (hlarge : ¬ FitsInline limits size f) :
    Truncates limits cs size f (f.truncateRows limits size) := by
  obtain ⟨last, hbegin, hend, ⟨rows, hf'⟩, hlookup⟩ := h.lookup_truncateRows hpos hlarge
  generalize f.truncateRows limits size = f' at hf' hlookup ⊢
  have hcommitted := fun i => committed_of_no_inline hinline i
  -- each chunk is cut to what the size leaves of it
  have hchunk (i) : f'.blob i = none ∧ (f.committed i).take (size - i * cs) = [] ∨
      f'.blob i = some ((f.committed i).take (size - i * cs)) ∧ (f.committed i).take (size - i * cs) ≠ [] := by
    have hi := hlookup i
    have hlen := h.committed_length_le i
    have hshort := h.short i
    split at hi
    case isTrue hcut =>
      obtain ⟨rfl, _, hlt⟩ := hcut
      refine .inr ⟨blob_of_lookup hi, length_pos_iff.mp ?_⟩
      rw [length_take]
      omega
    case isFalse hcut =>
      rw [blob_of_erase hi]
      cases hb : f.blob i with
      | none =>
        rw [hcommitted i, hb]
        exact .inl ⟨ite_self _, take_nil⟩
      | some d =>
        have hd : f.committed i = d := h.committed_of_blob hb
        by_cases hgone : size ≤ i * cs
        · rw [if_pos ⟨rfl, hgone⟩, Nat.sub_eq_zero_of_le hgone]
          exact .inl ⟨rfl, take_zero⟩
        rw [if_neg (fun hn => hgone hn.2)]
        have hall : (f.committed i).length ≤ size - i * cs := by
          by_cases hlast : i = last
          · subst hlast
            rw [hb] at hcut
            simp only [isSome_some, and_true, true_and] at hcut
            omega
          · have hlt : i < last := by
              by_contra hge
              have := Nat.mul_le_mul_right cs (show last + 1 ≤ i by omega)
              rw [Nat.succ_mul] at this
              omega
            have := Nat.mul_le_mul_right cs (show i + 1 ≤ last by omega)
            rw [Nat.succ_mul] at this
            omega
        rw [take_of_length_le hall, hd]
        exact .inr ⟨rfl, h.blobs i d hb⟩
  have hinline' : f'.inlineData = [] := by
    have h0 := hlookup 0
    split at h0
    · exact inlineData_of_lookup h0
    · rw [inlineData_of_erase h0, hinline]
      exact ite_self _
  have hcommitted' (i) : f'.committed i = (f.committed i).take (size - i * cs) := by
    rw [committed_of_no_inline hinline']
    rcases hchunk i with ⟨hnone, hnil⟩ | ⟨hsome, _⟩
    · rw [hnone, hnil]
      rfl
    · rw [hsome]
      rfl
  refine ⟨?_, by rw [hf'], by rw [hf'], fun hne => absurd hinline' hne, committedByte_take h.pos hcommitted'⟩
  apply RowsOk.of_blobs h.pos h.maxInline (by rw [hf']) (by rw [hf']) (.inl (by rw [hf'])) hinline'
  intro i d hd
  rcases hchunk i with ⟨hnone, _⟩ | ⟨hsome, hne⟩
  · rw [hnone] at hd
    simp at hd
  rw [hsome] at hd
  cases hd
  have hshort := h.short i
  have hlen := length_pos_iff.mpr hne
  refine ⟨hne, ?_, ?_⟩
  · rw [length_take]
    omega
  · rw [hf']
    show _ ≤ size
    rw [length_take] at hlen ⊢
    omega

theorem truncates (size : Nat) : Truncates limits cs size f (f.truncateRows limits size) := by
  by_cases hzero : size = 0
  · rw [hzero]
    exact truncates_zero h
  by_cases hsmall : FitsInline limits size f
  · exact truncates_inline h hzero hsmall
  by_cases hinline : f.inlineData = []
  · exact truncates_blobs h hzero hinline hsmall
  · exact truncates_inline_kept h hzero hinline hsmall

end Rows

section Sequential

variable {limits : Limits} {cs : Nat} {f : File}

theorem File.truncateFile_eq (limits : Limits) (f : File) (size : Nat) :
    f.truncateFile limits size = (f.truncateStaged limits size).truncateRows limits size := by
  simp only [truncateFile, Int.toNat_natCast]
  rw [if_neg (by omega)]

theorem StagedOk.cuts {f' : File} {size : Nat} (h : StagedOk cs f) (hcuts : Cuts cs size f f') : StagedOk cs f' := by
  have hlen (i r') (hr' : f'.stagedChunks.lookup i = some r') :
      r'.data ≠ [] ∧ r'.data.length ≤ cs ∧ i * cs + r'.data.length ≤ size ∧ r'.packID ≤ f.packID := by
    obtain ⟨hlt, r, hr, hdata, hpacks⟩ := hcuts.left i r' hr'
    have hpositive := length_pos_iff.mpr (h.nonempty i r hr)
    have hshort := h.short i r hr
    have hlength : r'.data.length = min (size - i * cs) r.data.length := by rw [hdata, length_take]
    refine ⟨length_pos_iff.mp (by omega), by omega, by omega, ?_⟩
    rcases hpacks with rfl | heq
    · exact h.packs i r' hr
    · exact le_of_eq heq
  refine ⟨fun i r hr => (hlen i r hr).1, fun i r hr => (hlen i r hr).2.1, ?_, ?_, hcuts.sized, ?_⟩
  · intro i r hr
    obtain ⟨s, hs⟩ := isSome_iff_exists.mp (hcuts.sized.mpr ⟨i, r, hr⟩)
    have hsize : f'.size = size := by
      rw [File.size, hs]
      exact hcuts.size s hs
    rw [hsize]
    exact (hlen i r hr).2.2.1
  · intro i r hr
    rw [hcuts.frame]
    exact (hlen i r hr).2.2.2
  · rintro hne ⟨i, r', hr'⟩
    obtain ⟨hlt, r, hr, _⟩ := hcuts.left i r' hr'
    rw [hcuts.frame] at hne
    obtain ⟨r0, hr0⟩ := isSome_iff_exists.mp (h.inline hne ⟨i, r, hr⟩)
    exact hcuts.kept 0 r0 hr0 (by omega)

theorem StagedOk.truncates {f' : File} {size : Nat} (h : StagedOk cs f) (htrunc : Truncates limits cs size f f')
    (hfits : ∀ i r, f.stagedChunks.lookup i = some r → i * cs < size) : StagedOk cs f' := by
  apply h.of_rows htrunc.frame
  rintro hne ⟨i, r, hr⟩
  rcases htrunc.inline hne with hsmall | hbefore
  · -- the file ends in chunk 0
    have hmax := htrunc.rows.maxInline
    have hlt := hfits i r hr
    have hzero : i = 0 := by
      by_contra hi
      have := Nat.mul_le_mul_right cs (Nat.pos_of_ne_zero hi)
      omega
    rw [← hzero, hr]
    rfl
  · exact h.inline hbefore ⟨i, r, hr⟩

/-- Below the size the file holds what it held. -/
theorem Cuts.currentByte {f' : File} {size : Nat} (hcuts : Cuts cs size f f') (hcs : 0 < cs) {p : Nat} (hp : p < size) :
    f'.currentByte cs p = f.currentByte cs p := by
  have hsplit := div_mul_add_mod hcs p
  unfold File.currentByte
  cases hs : f'.stagedChunks.lookup (p / cs) with
  | some r' =>
    obtain ⟨-, r, hr, hdata, -⟩ := hcuts.left _ _ hs
    rw [current_of_staged hs, current_of_staged hr, hdata, byteAt_take, if_pos (by omega)]
  | none =>
    have hnone : f.stagedChunks.lookup (p / cs) = none := by
      by_contra hne
      obtain ⟨r, hr⟩ := ne_none_iff_exists'.mp hne
      simpa [hs] using hcuts.kept _ r hr (by omega)
    rw [current_of_none hs, current_of_none hnone, hcuts.frame]
    rfl

/-- `TruncateFile`, with no other call in between, cuts the file or fills it up with
zeros. -/
theorem WellFormed.truncateFile (h : WellFormed limits cs f) {size : Nat}
    (hcuts : Cuts cs size f (f.truncateStaged limits size)) :
    WellFormed limits cs (f.truncateFile limits size) ∧ (f.truncateFile limits size).size = size ∧
      ∀ p, (f.truncateFile limits size).currentByte cs p = if p < size then f.currentByte cs p else 0 := by
  rw [truncateFile_eq]
  generalize f.truncateStaged limits size = g at hcuts ⊢
  have hrows : RowsOk limits cs g := by
    rw [hcuts.frame]
    exact h.rows.restaged _ _ f.packID
  have htrunc := truncates hrows size
  generalize g.truncateRows limits size = f' at htrunc ⊢
  have hchunks : f'.stagedChunks = g.stagedChunks := by rw [htrunc.frame]
  have hstagedSize : f'.stagedSize = g.stagedSize := by rw [htrunc.frame]
  have hsize : f'.size = size := by
    rw [File.size, hstagedSize]
    cases hs : g.stagedSize with
    | some s => exact hcuts.size s hs
    | none => exact htrunc.rowSize
  refine ⟨⟨htrunc.rows, ?_, ?_⟩, hsize, ?_⟩
  · exact (h.staged.cuts hcuts).truncates htrunc fun i r hr => (hcuts.left i r hr).1
  · rw [hsize, htrunc.rowSize]
  · intro p
    have hsplit := div_mul_add_mod h.rows.pos p
    rw [currentByte, current, hchunks]
    cases hs : g.stagedChunks.lookup (p / cs) with
    | some r' =>
      obtain ⟨_, r, hr, hdata, _⟩ := hcuts.left _ _ hs
      simp only
      rw [hdata, byteAt_take, currentByte, current_of_staged hr]
      split_ifs <;> first | rfl | omega
    | none =>
      rw [← committedByte, htrunc.bytes]
      split
      case isTrue hp => rw [← hcuts.currentByte h.rows.pos hp, currentByte, current_of_none hs, committedByte]
      case isFalse => rfl

end Sequential

end InClusterStorage.Controller
