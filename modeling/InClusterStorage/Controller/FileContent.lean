import InClusterStorage.Lib.Table
import InClusterStorage.Controller.FileData

/- What the rows of a file hold: the bytes of each chunk, whether inline or in a
   blob, and that `ReadFile` returns them. -/
namespace InClusterStorage.Controller

open Bytes List File

/-! Chunks and positions. -/

section Positions

variable {cs : Nat} (hcs : 0 < cs)
include hcs

theorem div_mul_add_mod (p : Nat) : p / cs * cs + p % cs = p ∧ p % cs < cs :=
  ⟨by rw [mul_comm]; exact Nat.div_add_mod p cs, Nat.mod_lt p hcs⟩

theorem div_eq {i p : Nat} : p / cs = i ↔ i * cs ≤ p ∧ p < i * cs + cs := by
  rw [Nat.div_eq_iff hcs]
  have hmul : (i + 1) * cs = i * cs + cs := Nat.succ_mul i cs
  omega

theorem mem_chunkRange {offset stop i : Nat} (h : offset < stop) :
    i ∈ chunkRange cs offset stop ↔ i * cs < stop ∧ offset < i * cs + cs := by
  have hfirst : offset / cs ≤ i ↔ offset < i * cs + cs := by
    rw [← Nat.succ_mul, ← Nat.lt_succ_iff, Nat.div_lt_iff_lt_mul hcs]
  have hlast : i ≤ (stop - 1) / cs ↔ i * cs < stop := by
    rw [Nat.le_div_iff_mul_le hcs]
    omega
  have hle : offset / cs ≤ (stop - 1) / cs := Nat.div_le_div_right (by omega)
  rw [chunkRange, mem_range'_1, ← hfirst, ← hlast]
  omega

end Positions

theorem chunkRange_nodup (cs offset stop : Nat) : (chunkRange cs offset stop).Nodup := nodup_range'

variable {cs : Nat} {f : File}

theorem expectedChunkLength_eq {size i : Nat} : expectedChunkLength cs size i = min (size - i * cs) cs := by
  have hmul : (i + 1) * cs = i * cs + cs := Nat.succ_mul i cs
  unfold expectedChunkLength
  split <;> omega

theorem Limits.volumeChunkSize_pos (limits : Limits) : 0 < limits.volumeChunkSize := by
  unfold volumeChunkSize
  split <;> omega

/-! What the rows hold. -/

namespace File

def inlineData (f : File) : List UInt8 :=
  match f.chunkRows.lookup 0 with
  | some chunk => chunk.inlineData
  | none => []

/-- The blob of chunk `i`; a chunk 0 that is inline has none. -/
def blob (f : File) (i : Nat) : Digest :=
  match f.chunkRows.lookup i with
  | some chunk => if i = 0 ∧ chunk.inlineData ≠ [] then none else chunk.sha256
  | none => none

/-- The bytes the rows hold of chunk `i`. -/
def committed (f : File) (i : Nat) : List UInt8 :=
  if i = 0 ∧ f.inlineData ≠ [] then f.inlineData else (f.blob i).getD []

/-- What the rows hold at a position. -/
def committedByte (cs : Nat) (f : File) (p : Nat) : UInt8 := byteAt (f.committed (p / cs)) (p % cs)

theorem committed_zero {f : File} (hne : f.inlineData ≠ []) : f.committed 0 = f.inlineData := by
  rw [committed, if_pos ⟨rfl, hne⟩]

/-- What `ReadFile` finds at a position: inline data are read whole, however long. -/
def byte (cs : Nat) (f : File) (p : Nat) : UInt8 :=
  if f.inlineData ≠ [] then byteAt f.inlineData p else f.committedByte cs p

end File

/-- Rows that can be read chunk by chunk: the digests of the whole content are not needed. -/
structure Readable (cs : Nat) (f : File) : Prop where
  pos : 0 < cs
  chunkSize : f.row.chunkSize = cs
  sha256 : f.row.sha256 = none
  content : ∀ d, f.row.contentSha256 = some d → d = [] ∨ f.inlineData ≠ [] ∨ ∃ i d', f.blob i = some d'

/-- Rows in order: chunks of `cs` bytes at most that end within the file, a file that
is inline has no blobs, and the digests of the whole content are not needed. -/
structure RowsOk (limits : Limits) (cs : Nat) (f : File) : Prop where
  pos : 0 < cs
  maxInline : limits.maxInlineLen ≤ cs
  chunkSize : f.row.chunkSize = cs
  sha256 : f.row.sha256 = none
  content : f.row.contentSha256 ≠ none → f.inlineData ≠ [] ∨ ∃ i d, f.blob i = some d
  blobs : ∀ i d, f.blob i = some d → d ≠ []
  fits : ∀ i, f.committed i ≠ [] → i * cs + (f.committed i).length ≤ f.row.size
  short : ∀ i, (f.committed i).length ≤ cs
  inline : f.inlineData ≠ [] → f.inlineData.length ≤ limits.maxInlineLen ∧ ∀ i, f.blob i = none

namespace File

variable {f : File}

theorem committed_of_no_inline (h : f.inlineData = []) (i : Nat) : f.committed i = (f.blob i).getD [] := by
  rw [committed, if_neg (fun hn => hn.2 h)]

theorem inlineData_of_lookup {chunk : FileChunk} (h : f.chunkRows.lookup 0 = some chunk) :
    f.inlineData = chunk.inlineData := by
  rw [inlineData, h]

variable {i : Nat} {f' : File}

theorem blob_of_lookup {data : Digest} (h : f.chunkRows.lookup i = some { sha256 := data }) : f.blob i = data := by
  simp only [blob, h, ne_eq, not_true_eq_false, and_false, if_false]

theorem blob_of_inline {data : List UInt8} (h : f.chunkRows.lookup i = some { inlineData := data }) :
    f.blob i = none := by
  simp only [blob, h]
  exact ite_self _

theorem blob_congr (h : f'.chunkRows.lookup i = f.chunkRows.lookup i) : f'.blob i = f.blob i := by
  rw [blob, blob, h]

theorem inlineData_congr (h : f'.chunkRows.lookup 0 = f.chunkRows.lookup 0) : f'.inlineData = f.inlineData := by
  rw [inlineData, inlineData, h]

theorem committed_congr (h : f'.chunkRows = f.chunkRows) (i : Nat) : f'.committed i = f.committed i := by
  rw [committed, committed, inlineData_congr (f := f) (by rw [h]), blob_congr (f := f) (by rw [h])]

theorem blob_of_erase {gone : Prop} [Decidable gone]
    (h : f'.chunkRows.lookup i = if gone then none else f.chunkRows.lookup i) :
    f'.blob i = if gone then none else f.blob i := by
  rw [blob, h]
  split_ifs <;> rfl

theorem inlineData_of_erase {gone : Prop} [Decidable gone]
    (h : f'.chunkRows.lookup 0 = if gone then none else f.chunkRows.lookup 0) :
    f'.inlineData = if gone then [] else f.inlineData := by
  rw [inlineData, h]
  split_ifs <;> rfl

theorem committed_of_ne (hi : i ≠ 0) : f.committed i = (f.blob i).getD [] := by
  rw [committed, if_neg (fun hn => hi hn.1)]

end File

section

variable {limits : Limits} (pos : 0 < cs) (maxInline : limits.maxInlineLen ≤ cs) (chunkSize : f.row.chunkSize = cs)
  (sha256 : f.row.sha256 = none)
include pos maxInline chunkSize sha256

theorem RowsOk.of_blobs (content : f.row.contentSha256 = none ∨ ∃ i d, f.blob i = some d) (hinline : f.inlineData = [])
    (blobs : ∀ i d, f.blob i = some d → d ≠ [] ∧ d.length ≤ cs ∧ i * cs + d.length ≤ f.row.size) :
    RowsOk limits cs f := by
  refine ⟨pos, maxInline, chunkSize, sha256, fun hc => .inr (content.resolve_left hc), fun i d hd => (blobs i d hd).1,
      ?_, ?_,
    fun hne => absurd hinline hne⟩
  · intro i hne
    rw [committed_of_no_inline hinline] at hne ⊢
    cases hb : f.blob i with
    | none => rw [hb] at hne; exact absurd rfl hne
    | some d => exact (blobs i d hb).2.2
  · intro i
    rw [committed_of_no_inline hinline]
    cases hb : f.blob i with
    | none => exact Nat.zero_le _
    | some d => exact (blobs i d hb).2.1

theorem RowsOk.of_inline (hne : f.inlineData ≠ [])
    (hlen : f.inlineData.length ≤ limits.maxInlineLen) (hsize : f.inlineData.length ≤ f.row.size)
    (hblob : ∀ i, f.blob i = none) : RowsOk limits cs f := by
  have hsucc (i) (hi : i ≠ 0) : f.committed i = [] := by
    rw [committed_of_ne hi, hblob i]
    rfl
  refine ⟨pos, maxInline, chunkSize, sha256, fun _ => .inl hne, ?_, ?_, ?_, fun _ => ⟨hlen, hblob⟩⟩
  · intro i d hd
    rw [hblob i] at hd
    simp at hd
  · intro i hi
    by_cases h0 : i = 0
    · rw [h0, committed_zero hne]
      omega
    · exact absurd (hsucc i h0) hi
  · intro i
    by_cases h0 : i = 0
    · rw [h0, committed_zero hne]
      omega
    · rw [hsucc i h0]
      exact Nat.zero_le _

end

namespace RowsOk

variable {limits : Limits} {cs : Nat} {f : File} (h : RowsOk limits cs f)
include h

theorem chunkSizeOf : limits.chunkSizeOf f.row = cs := by
  have hpos := h.pos
  rw [Limits.chunkSizeOf, h.chunkSize, if_pos hpos]

variable {i : Nat}

theorem committed_of_blob {d : List UInt8} (hd : f.blob i = some d) : f.committed i = d := by
  have hinline : ¬ (i = 0 ∧ f.inlineData ≠ []) := by
    intro hi
    have hnone := (h.inline hi.2).2 i
    rw [hd] at hnone
    simp at hnone
  rw [committed, if_neg hinline, hd]
  rfl

theorem committed_succ (hne : f.inlineData ≠ []) (hi : i ≠ 0) : f.committed i = [] := by
  rw [committed_of_ne hi, (h.inline hne).2 i]
  rfl

/-- In a file that ends within its first chunk, no other chunk has a blob. -/
theorem blob_eq_none (hsize : f.row.size ≤ cs) (hi : i ≠ 0) : f.blob i = none := by
  have hmul : 1 * cs ≤ i * cs := Nat.mul_le_mul_right cs (Nat.pos_of_ne_zero hi)
  cases hb : f.blob i with
  | none => rfl
  | some d =>
    have hd := h.blobs i d hb
    have hcommitted : f.committed i = d := by
      rw [committed_of_ne hi, hb]
      rfl
    have hfits := h.fits i (hcommitted ▸ hd)
    have hlen := length_pos_iff.mpr hd
    rw [hcommitted] at hfits
    omega

theorem committed_eq_nil (hi : f.row.size ≤ i * cs) : f.committed i = [] := by
  by_contra hne
  have hfits := h.fits i hne
  have hlen := length_pos_iff.mpr hne
  omega

theorem committed_length_le (i : Nat) : (f.committed i).length ≤ f.row.size - i * cs := by
  by_cases hne : f.committed i = []
  · rw [hne]
    exact Nat.zero_le _
  · have := h.fits i hne
    omega

theorem committedByte_eq_zero {p : Nat} (hp : f.row.size ≤ p) : f.committedByte cs p = 0 := by
  have hsplit := div_mul_add_mod h.pos p
  have hlen := h.committed_length_le (p / cs)
  apply byteAt_of_length_le
  omega

theorem empty_of_size (hsize : f.row.size = 0) : f.inlineData = [] ∧ ∀ i, f.blob i = none := by
  have hnil (i) : f.committed i = [] := h.committed_eq_nil (by omega)
  constructor
  · by_contra hne
    exact hne (committed_zero hne ▸ hnil 0)
  · intro i
    match hb : f.blob i with
    | none => rfl
    | some d => exact absurd (h.committed_of_blob hb ▸ hnil i) (h.blobs i d hb)

end RowsOk

/-! Loading. -/

/-- The loaded inode has what the rows have. -/
structure Loaded (f : File) (node : CachedInode) : Prop where
  row : node.row = f.row
  inlineData : node.inlineData = f.inlineData
  chunks : ∀ i, node.chunks.lookup i = f.blob i

namespace File

variable {f : File} {node : CachedInode}

theorem loadChunk_row (index : Nat) : (f.loadChunk node index).row = node.row := by
  unfold loadChunk
  repeat' split
  all_goals rfl

theorem loadChunks_row (keys : List Nat) : (keys.foldl f.loadChunk node).row = node.row := by
  induction keys generalizing node with
  | nil => rfl
  | cons k keys ih => rw [foldl_cons, ih, loadChunk_row]

theorem loadChunk_chunks (node : CachedInode) (i j : Nat) :
    (f.loadChunk node i).chunks.lookup j =
      if j = i then (f.blob i).or (node.chunks.lookup i) else node.chunks.lookup j := by
  unfold loadChunk blob
  by_cases hj : j = i
  · subst hj
    rw [if_pos rfl]
    cases f.chunkRows.lookup j with
    | none => rfl
    | some chunk =>
      by_cases hinline : j = 0 ∧ chunk.inlineData ≠ []
      · simp only [if_pos hinline, Option.none_or]
      simp only [if_neg hinline]
      cases chunk.sha256 with
      | none => rfl
      | some d => exact AList.lookup_insert node.chunks
  · rw [if_neg hj]
    cases f.chunkRows.lookup i with
    | none => rfl
    | some chunk =>
      by_cases hinline : i = 0 ∧ chunk.inlineData ≠ []
      · simp only [if_pos hinline]
      · simp only [if_neg hinline]
        cases chunk.sha256 with
        | none => rfl
        | some d => exact AList.lookup_insert_ne hj

theorem loadChunk_inlineData (node : CachedInode) (i : Nat) :
    (f.loadChunk node i).inlineData = if i = 0 ∧ f.inlineData ≠ [] then f.inlineData else node.inlineData := by
  unfold loadChunk inlineData
  by_cases hi : i = 0
  · subst hi
    cases f.chunkRows.lookup 0 with
    | none => simp
    | some chunk =>
      by_cases hinline : chunk.inlineData = []
      · cases hsha : chunk.sha256 <;> simp [hinline, hsha]
      · simp [hinline]
  · cases f.chunkRows.lookup i with
    | none => simp [hi]
    | some chunk => cases hsha : chunk.sha256 <;> simp [hi, hsha]

theorem loadChunks_inlineData (keys : List Nat) :
    (keys.foldl f.loadChunk node).inlineData =
      if 0 ∈ keys ∧ f.inlineData ≠ [] then f.inlineData else node.inlineData := by
  induction keys generalizing node with
  | nil => simp
  | cons k keys ih =>
    rw [foldl_cons, ih, loadChunk_inlineData]
    by_cases hk : k = 0
    · subst hk
      by_cases hinline : f.inlineData = [] <;> simp [hinline]
    · simp [hk, Ne.symm hk]

theorem zero_mem_keys (h : f.inlineData ≠ []) : 0 ∈ f.chunkRows.keys := by
  rw [Table.mem_keys]
  unfold inlineData at h
  cases hrow : f.chunkRows.lookup 0 with
  | none => simp [hrow] at h
  | some chunk => rfl

/-- Loading adds what the rows have to what the loaded inode has. -/
theorem loadChunks (f : File) (node : CachedInode) :
    (f.chunkRows.keys.foldl f.loadChunk node).row = node.row ∧
      (f.chunkRows.keys.foldl f.loadChunk node).inlineData =
        (if f.inlineData ≠ [] then f.inlineData else node.inlineData) ∧
      ∀ i, (f.chunkRows.keys.foldl f.loadChunk node).chunks.lookup i = (f.blob i).or (node.chunks.lookup i) := by
  refine ⟨loadChunks_row _, ?_, ?_⟩
  · rw [loadChunks_inlineData]
    by_cases hinline : f.inlineData = []
    · simp [hinline]
    · simp [hinline, zero_mem_keys hinline]
  · apply Table.foldl_keys (fun (node : CachedInode) i => node.chunks.lookup i) loadChunk_chunks
    intro i c hnone
    simp [blob, hnone]

end File

theorem File.getOrLoadInode_row (f : File) : f.getOrLoadInode.row = f.row := by
  unfold getOrLoadInode ensureInodeChunksLoaded
  split
  · rfl
  split
  · rfl
  · exact loadChunks_row _

/-- A file that is not empty is loaded from its rows, whatever they hold. -/
theorem File.getOrLoadInode_loads (hsize : f.row.size ≠ 0) : Loaded f f.getOrLoadInode := by
  have hnone : ¬ (0 < f.row.chunkSize ∧ 0 < (∅ : AList fun _ : Nat => List UInt8).entries.length) :=
    fun hn => absurd hn.2 (lt_irrefl 0)
  unfold getOrLoadInode ensureInodeChunksLoaded
  rw [if_neg hsize, if_neg hnone]
  obtain ⟨hrow, hinline, hchunks⟩ := f.loadChunks { row := f.row }
  refine ⟨hrow, ?_, ?_⟩
  · rw [hinline]
    by_cases hne : f.inlineData = [] <;> simp [hne]
  · intro i
    rw [hchunks i]
    exact Option.or_none

theorem Loaded.ensureInodeChunksLoaded {node : CachedInode} (hn : Loaded f node) :
    Loaded f (f.ensureInodeChunksLoaded node) := by
  unfold File.ensureInodeChunksLoaded
  split
  · exact hn
  split
  · exact hn
  obtain ⟨hrow, hinline, hchunks⟩ := f.loadChunks node
  refine ⟨hrow.trans hn.row, ?_, ?_⟩
  · rw [hinline, hn.inlineData]
    exact ite_self _
  · intro i
    rw [hchunks i, hn.chunks i]
    exact Option.or_self

theorem RowsOk.loaded_getOrLoadInode {limits : Limits} (h : RowsOk limits cs f) : Loaded f f.getOrLoadInode := by
  by_cases hsize : f.row.size = 0
  · have hempty := h.empty_of_size hsize
    unfold getOrLoadInode ensureInodeChunksLoaded
    rw [if_pos hsize]
    exact ⟨rfl, hempty.1.symm, fun i => (hempty.2 i).symm⟩
  · exact getOrLoadInode_loads hsize

theorem RowsOk.readable {limits : Limits} (h : RowsOk limits cs f) : Readable cs f :=
  ⟨h.pos, h.chunkSize, h.sha256, fun _ hd => .inr (h.content (by simp [hd]))⟩

namespace Readable

variable {cs : Nat} {f : File} (h : Readable cs f)
include h

theorem chunkSizeOf (limits : Limits) : limits.chunkSizeOf f.row = cs := by
  have hpos := h.pos
  rw [Limits.chunkSizeOf, h.chunkSize, if_pos hpos]

theorem readChunk {node : CachedInode} (hn : Loaded f node) (i : Nat) :
    Loaded f (f.readChunk node i).1 ∧ (f.readChunk node i).2 = f.committed i := by
  have hload := hn.ensureInodeChunksLoaded
  unfold File.readChunk File.resolveChunkSource
  by_cases hinline : i = 0 ∧ node.inlineData ≠ []
  · rw [if_pos hinline]
    have hne : f.inlineData ≠ [] := hn.inlineData ▸ hinline.2
    refine ⟨hn, ?_⟩
    simp only [hinline.2, ne_eq, not_false_eq_true, if_true]
    rw [hinline.1, committed_zero hne, hn.inlineData]
  · have hblob : f.committed i = (f.blob i).getD [] := if_neg (hn.inlineData ▸ hinline)
    rw [if_neg hinline, hblob]
    cases hb : f.blob i with
    | some d =>
      simp only [hload.chunks i, hb]
      exact ⟨hload, rfl⟩
    | none =>
      simp only [hload.chunks i, hb]
      split
      case isFalse => exact ⟨hload, rfl⟩
      -- a digest of the whole content means inline data, or blobs, or nothing
      case isTrue hwhole =>
        obtain ⟨hi, hsha, hzero⟩ := hwhole
        rw [hload.row, h.sha256] at hsha ⊢
        obtain ⟨d, hd⟩ := Option.ne_none_iff_exists'.mp (hsha.resolve_left (fun hn => hn rfl))
        rw [if_pos rfl, hd]
        rcases h.content d hd with rfl | hne | ⟨j, d', hd'⟩
        · exact ⟨hload, rfl⟩
        · exact absurd ⟨hi, hn.inlineData ▸ hne⟩ hinline
        · have hj := Table.length_eq_zero.mp hzero j
          rw [hload.chunks j, hd'] at hj
          simp at hj

end Readable

theorem RowsOk.readChunk {limits : Limits} (h : RowsOk limits cs f) {node : CachedInode} (hn : Loaded f node) (i : Nat) :
    Loaded f (f.readChunk node i).1 ∧ (f.readChunk node i).2 = f.committed i :=
  h.readable.readChunk hn i

/-! Reading. -/

theorem length_copyChunk {total offset stop i : Nat} {res chunkData : List UInt8}
    (hres : res.length = stop - offset) : (copyChunk cs total offset stop res i chunkData).length = stop - offset := by
  unfold copyChunk
  simp only
  split
  case isTrue hlt =>
    rw [length_overwrite, hres]
    rw [length_slice]
    omega
  case isFalse => exact hres

theorem byteAt_copyChunk {total offset stop i q : Nat} {res chunkData : List UInt8}
    (hres : res.length = stop - offset) :
    byteAt (copyChunk cs total offset stop res i chunkData) q =
      if i * cs ≤ offset + q ∧
          offset + q < i * cs + min (min (stop - i * cs) (expectedChunkLength cs total i)) chunkData.length then
        byteAt chunkData (offset + q - i * cs) else byteAt res q := by
  unfold copyChunk
  by_cases hlt : offset - i * cs < min (min (stop - i * cs) (expectedChunkLength cs total i)) chunkData.length
  · rw [if_pos hlt, byteAt_overwrite (by omega), length_slice, byteAt_slice]
    split_ifs with h₁ h₂ h₃ h₃ h₃
    · congr 1
      omega
    · omega
    · omega
    · omega
    · omega
    · rfl
  · rw [if_neg hlt, if_neg (by omega)]

namespace Readable

variable {cs : Nat} {f : File} (h : Readable cs f)
include h

section

variable {offset stop q : Nat} {r : CachedInode × List UInt8} (hstop : stop ≤ f.row.size) (hq : q < stop - offset)
  (hload : Loaded f r.1) (hlen : r.2.length = stop - offset)
  (hzero : byteAt r.2 q = 0 ∨ byteAt r.2 q = f.committedByte cs (offset + q))
include hstop hq hload hlen hzero

theorem byteAt_readStep {i : Nat} :
    byteAt (f.readStep cs f.row.size offset stop r i).2 q =
      if (offset + q) / cs = i then f.committedByte cs (offset + q) else byteAt r.2 q := by
  have hiff := div_eq h.pos (i := i) (p := offset + q)
  have hsplit := div_mul_add_mod h.pos (offset + q)
  show byteAt (copyChunk cs f.row.size offset stop r.2 i (f.readChunk r.1 i).2) q = _
  rw [byteAt_copyChunk hlen, (h.readChunk hload i).2, expectedChunkLength_eq]
  by_cases hi : (offset + q) / cs = i
  · rw [if_pos hi]
    have hbyte : f.committedByte cs (offset + q) = byteAt (f.committed i) (offset + q - i * cs) := by
      rw [committedByte, hi]
      congr 1
      rw [hi] at hsplit
      omega
    split
    case isTrue => exact hbyte.symm
    case isFalse hout =>
      -- the chunk ends before the position
      have hend : byteAt (f.committed i) (offset + q - i * cs) = 0 := byteAt_of_length_le (by omega)
      rw [hbyte, hend]
      rwa [hbyte, hend, or_self] at hzero
  · rw [if_neg hi, if_neg (by omega)]

theorem byteAt_readSteps (indices : List Nat) :
    (indices.foldl (f.readStep cs f.row.size offset stop) r).2.length = stop - offset ∧
      byteAt (indices.foldl (f.readStep cs f.row.size offset stop) r).2 q =
        if (offset + q) / cs ∈ indices then f.committedByte cs (offset + q) else byteAt r.2 q := by
  induction indices generalizing r with
  | nil => exact ⟨hlen, rfl⟩
  | cons i indices ih =>
    have hstep := h.byteAt_readStep (i := i) hstop hq hload hlen hzero
    have hnext := ih (r := f.readStep cs f.row.size offset stop r i) (h.readChunk hload i).1
      (length_copyChunk hlen) (by rw [hstep]; split <;> simp [hzero])
    refine ⟨hnext.1, ?_⟩
    rw [foldl_cons, hnext.2, hstep]
    by_cases hi : (offset + q) / cs = i <;> simp [hi]

end

/-- `ReadFile` returns the bytes of the rows, up to the end of the file; without a
length, all of them. -/
theorem readFile_eq {m : List UInt8} (hlen : m.length = f.row.size)
    (hm : ∀ p, p < m.length → byteAt m p = f.byte cs p) (limits : Limits) (offset length : Nat) :
    f.readFile limits offset length = slice m offset (if length = 0 then m.length else offset + length) := by
  have hpos := h.pos
  unfold readFile
  simp only [getOrLoadInode_row]
  split
  case isTrue hout =>
    apply eq_slice
    · show 0 = _
      omega
    · intro p hp
      exact absurd hp (Nat.not_lt_zero p)
  case isFalse hin =>
    have hload := f.getOrLoadInode_loads (by omega)
    generalize hstop : (if length = 0 ∨ f.row.size < offset + length then f.row.size else offset + length) = stop
    have hle : stop ≤ f.row.size ∧ offset < stop ∧
        min (if length = 0 then m.length else offset + length) m.length = stop := by
      subst hstop
      split_ifs <;> omega
    obtain ⟨hsize, hlt, hmin⟩ := hle
    split
    case isTrue hne =>
      rw [hload.inlineData] at hne
      rw [hload.inlineData]
      apply eq_slice
      · rw [length_resize, hmin]
      · intro p hp
        rw [length_resize] at hp
        rw [byteAt_resize, if_pos hp, byteAt_slice, if_pos (by omega), hm _ (by omega), byte, if_pos hne]
    case isFalse hne =>
      rw [hload.inlineData] at hne
      rw [if_pos (.inr (.inl (h.chunkSize ▸ hpos))), h.chunkSizeOf]
      have hread := fun q (hq : q < stop - offset) =>
        h.byteAt_readSteps (r := (f.ensureInodeChunksLoaded f.getOrLoadInode, zeros (stop - offset))) hsize hq
          hload.ensureInodeChunksLoaded length_zeros (.inl byteAt_zeros) (chunkRange cs offset stop)
      have hlength := (hread 0 (by omega)).1
      apply eq_slice
      · rw [hlength, hmin]
      · intro q hq
        rw [hlength] at hq
        have hsplit := div_mul_add_mod hpos (offset + q)
        have hmem : (offset + q) / cs ∈ chunkRange cs offset stop := (mem_chunkRange hpos hlt).mpr (by omega)
        rw [(hread q hq).2, if_pos hmem, hm _ (by omega), byte, if_neg hne]

theorem readFile_one (limits : Limits) (p : Nat) :
    f.readFile limits p 1 = if p < f.row.size then [f.byte cs p] else [] := by
  have hlen : ((range f.row.size).map (f.byte cs)).length = f.row.size := by simp
  have hbyte (q) (hq : q < f.row.size) : byteAt ((range f.row.size).map (f.byte cs)) q = f.byte cs q := by
    simp [byteAt, hq]
  rw [h.readFile_eq hlen (fun q hq => hbyte q (hlen ▸ hq)) limits p 1, if_neg Nat.one_ne_zero, slice_one, hlen]
  split
  case isTrue hp => rw [hbyte p hp]
  case isFalse => rfl

end Readable

namespace RowsOk

variable {limits : Limits} {cs : Nat} {f : File} (h : RowsOk limits cs f)
include h

theorem byteAt_inline (hne : f.inlineData ≠ []) (p : Nat) : byteAt f.inlineData p = f.committedByte cs p := by
  have hsplit := div_mul_add_mod h.pos p
  have hmax := h.maxInline
  have hlen := (h.inline hne).1
  rw [committedByte]
  by_cases hp : p / cs = 0
  · rw [hp] at hsplit ⊢
    rw [committed_zero hne]
    congr 1
    omega
  · have hlt : cs ≤ p := by
      have hone := Nat.mul_le_mul_right cs (Nat.pos_of_ne_zero hp)
      omega
    rw [h.committed_succ hne hp, byteAt_of_length_le (by omega), byteAt_nil]

theorem byte_eq (p : Nat) : f.byte cs p = f.committedByte cs p := by
  unfold byte
  split
  case isTrue hne => exact h.byteAt_inline hne p
  case isFalse => rfl

theorem readFile_eq {m : List UInt8} (hlen : m.length = f.row.size)
    (hm : ∀ p, p < m.length → byteAt m p = f.committedByte cs p) (offset length : Nat) :
    f.readFile limits offset length = slice m offset (if length = 0 then m.length else offset + length) :=
  h.readable.readFile_eq hlen (fun p hp => (hm p hp).trans (h.byte_eq p).symm) limits offset length

theorem readFile_one (p : Nat) : f.readFile limits p 1 = if p < f.row.size then [f.committedByte cs p] else [] := by
  rw [h.readable.readFile_one, h.byte_eq]

end RowsOk

end InClusterStorage.Controller
