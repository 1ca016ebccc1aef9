import InClusterStorage.Controller.FileRefinement

/- Files with chunks of any size.

   A sync decides by the size of a file and the number of its staged chunks whether
   the file is kept inline, and the staged part of a truncate counts in chunks of the
   volume, not of the file. Both are right for the chunk sizes that volumes have by
   default, where a small file has only chunk 0. With shorter chunks a file that is
   small enough to be inline may have several of them, and its inline data may be
   longer than a chunk.

   `sync_keeps_iff` says exactly when a sync keeps everything; `truncate_staged_reads` is
   about a truncate and the sync after it. -/
namespace InClusterStorage.Controller

open Bytes List File Option Table

variable {limits : Limits} {cs : Nat} {f : File}

/-! Files. -/

/-- What the blobs hold at a position. -/
def File.blobByte (cs : Nat) (f : File) (p : Nat) : UInt8 := byteAt ((f.blob (p / cs)).getD []) (p % cs)

theorem File.byte_of_inline (hne : f.inlineData ≠ []) (p : Nat) : f.byte cs p = byteAt f.inlineData p := if_pos hne

theorem File.byte_of_no_inline (hnil : f.inlineData = []) (p : Nat) : f.byte cs p = f.blobByte cs p := by
  rw [byte, if_neg (not_not.mpr hnil), committedByte, committed_of_no_inline hnil]
  rfl

theorem File.blobByte_of_none {p : Nat} (h : f.blob (p / cs) = none) : f.blobByte cs p = 0 := by
  rw [blobByte, h]
  rfl

/-- Rows of a file with chunks of any size: blobs of `cs` bytes at most that end within
the file, or else inline data that do. -/
structure RowsStored (cs : Nat) (f : File) : Prop where
  pos : 0 < cs
  chunkSize : f.row.chunkSize = cs
  sha256 : f.row.sha256 = none
  content : f.row.contentSha256 ≠ none → f.inlineData ≠ [] ∨ ∃ i d, f.blob i = some d
  blobs : ∀ i d, f.blob i = some d → d ≠ [] ∧ d.length ≤ cs ∧ i * cs + d.length ≤ f.row.size
  inline : f.inlineData ≠ [] → f.inlineData.length ≤ f.row.size ∧ ∀ i, f.blob i = none

/-- A file as `WriteFile` leaves it: the chunks end within the staged size, and inline
data are staged along with any chunk, those that go beyond chunk 0 unchanged. -/
structure Stored (cs : Nat) (f : File) : Prop extends RowsStored cs f where
  staged : ∀ i r, f.stagedChunks.lookup i = some r → r.data ≠ [] ∧ i * cs + r.data.length ≤ f.size
  beyond : ∀ r, f.stagedChunks.lookup 0 = some r → ∀ p, cs ≤ p → byteAt r.data p = byteAt f.inlineData p
  sized : f.Sized
  inlineStaged : f.inlineData ≠ [] → (∃ i r, f.stagedChunks.lookup i = some r) → (f.stagedChunks.lookup 0).isSome
  grown : f.row.size ≤ f.size

namespace RowsStored

variable (h : RowsStored cs f)
include h

theorem readable : Readable cs f :=
  ⟨h.pos, h.chunkSize, h.sha256, fun _ hd => .inr (h.content (by simp [hd]))⟩

theorem blobByte_eq_zero {p : Nat} (hp : f.row.size ≤ p) : f.blobByte cs p = 0 := by
  have hsplit := div_mul_add_mod h.pos p
  cases hb : f.blob (p / cs) with
  | none => exact blobByte_of_none hb
  | some d =>
    obtain ⟨-, -, hfits⟩ := h.blobs _ d hb
    rw [blobByte, hb]
    exact byteAt_of_length_le (by simp only [getD_some]; omega)

end RowsStored

/-! What a sync leaves. -/

def File.SyncsInline (limits : Limits) (f : File) : Prop :=
  f.size ≤ limits.maxInlineLen ∧ f.stagedChunks.entries.length = 1

instance (limits : Limits) (f : File) : Decidable (f.SyncsInline limits) := inferInstanceAs (Decidable (_ ∧ _))

/-- What a sync of staged chunks leaves at a position. -/
def File.syncedByte (limits : Limits) (cs : Nat) (f : File) (p : Nat) : UInt8 :=
  if f.SyncsInline limits then
    match f.stagedChunks.lookup 0 with
    | some r => byteAt r.data p
    | none => if p / cs = 0 then 0 else f.blobByte cs p
  else
    match f.stagedChunks.lookup (p / cs) with
    | some r => byteAt r.data (p % cs)
    | none => f.blobByte cs p

section Sync

variable (hstaged : 0 < f.stagedChunks.entries.length) (hsized : f.Sized) (hgrown : f.row.size ≤ f.size)
include hstaged hsized hgrown

omit hgrown in
/-- `finishSync` leaves the rows as the commit has written them. -/
theorem File.fsync_frame (limits : Limits) : ∃ stagedChunks stagedSize packID, f.fsync limits =
    { f.sealActivePack.appendSyncRecords limits f.snapshot with stagedChunks, stagedSize, packID } := by
  have happended : (f.sealActivePack.appendSyncRecords limits f.snapshot).Sized := by
    unfold appendSyncRecords
    simp only
    split <;> exact hsized
  rw [fsync, if_neg (by omega), (restaged_finishSync happended f.snapshot).frame]
  exact ⟨_, _, _, rfl⟩

theorem File.snapshot_size : f.snapshot.size = f.size ∧ max f.snapshot.size f.row.size = f.size := by
  obtain ⟨n, hn⟩ := isSome_iff_exists.mp (hsized.mpr (length_pos.mp hstaged))
  have hsnap : f.snapshot.size = f.size := by simp only [snapshot, File.size, hn, getD_some]
  exact ⟨hsnap, by rw [hsnap, max_eq_left hgrown]⟩

variable (hcs : f.row.chunkSize = cs) (hpos : 0 < cs)
  (hnonempty : ∀ i r, f.stagedChunks.lookup i = some r → r.data ≠ [])
  (hinline : f.inlineData ≠ [] → (f.stagedChunks.lookup 0).isSome)
include hcs hpos hnonempty hinline

omit hstaged hsized hgrown hnonempty hinline in
theorem File.chunkSizeOf_seal (limits : Limits) : limits.chunkSizeOf f.sealActivePack.row = cs := by
  rw [Limits.chunkSizeOf, show f.sealActivePack.row.chunkSize = cs from hcs, if_pos hpos]

omit hinline in
theorem File.commit_inline (h : f.SyncsInline limits) {g : File}
    (hg : f.sealActivePack.appendSyncRecords limits f.snapshot = g) :
    Readable cs g ∧ g.row.size = f.size ∧ ∀ p, g.byte cs p = f.syncedByte limits cs p := by
  have hmax := (snapshot_size hstaged hsized hgrown).2
  generalize hdata : ((f.snapshot.chunks.lookup 0).map (·.data)).getD [] = data
  obtain ⟨hframe, hinline, hblob₀, hblobs⟩ :=
    appendSyncRecords_inline (f := f.sealActivePack) ⟨hmax.trans_le h.1, h.2.le⟩ hdata hg
  rw [chunkSizeOf_seal hcs hpos] at hframe
  refine ⟨⟨hpos, by rw [hframe], by rw [hframe], fun d hd => ?_⟩, by rw [hframe]; exact hmax, fun p => ?_⟩
  · rw [hframe] at hd
    by_cases hnil : data = []
    · exact .inl ((some.inj hd).symm.trans hnil)
    · exact .inr (.inl (by rwa [hinline]))
  · rw [syncedByte, if_pos h]
    cases h0 : f.stagedChunks.lookup 0 with
    | some r =>
      have hr : data = r.data := by
        rw [← hdata, show f.snapshot.chunks.lookup 0 = some r from h0]
        rfl
      rw [byte_of_inline (by rw [hinline, hr]; exact hnonempty 0 r h0), hinline, hr]
    | none =>
      have hnil : data = [] := by
        rw [← hdata, show f.snapshot.chunks.lookup 0 = none from h0]
        rfl
      rw [byte_of_no_inline (hinline.trans hnil)]
      by_cases hp : p / cs = 0
      · rw [blobByte_of_none (by rw [hp]; exact hblob₀)]
        exact (if_pos hp).symm
      · rw [blobByte, hblobs _ hp]
        exact (if_neg hp).symm

omit hnonempty in
theorem File.commit_chunks (h : ¬ f.SyncsInline limits) {g : File}
    (hg : f.sealActivePack.appendSyncRecords limits f.snapshot = g) :
    Readable cs g ∧ g.row.size = f.size ∧ ∀ p, g.byte cs p = f.syncedByte limits cs p := by
  obtain ⟨hsnap, hmax⟩ := snapshot_size hstaged hsized hgrown
  have hlarge {n : Nat} (hn : n = f.size) : ¬ (n ≤ limits.maxInlineLen ∧ f.stagedChunks.entries.length ≤ 1) :=
    fun hsmall => h ⟨hn ▸ hsmall.1, by omega⟩
  obtain ⟨hframe, hinline', hblobs⟩ := appendSyncRecords_chunks (f := f.sealActivePack) (hlarge hmax) hinline hg
  rw [chunkSizeOf_seal hcs hpos] at hframe
  refine ⟨⟨hpos, by rw [hframe], by rw [hframe], fun d hd => ?_⟩, by rw [hframe]; exact hmax, fun p => ?_⟩
  · rw [hframe] at hd
    simp at hd
  · have hsha : f.snapshot.chunkSha limits (p / cs) = (f.stagedChunks.lookup (p / cs)).map (·.data) :=
      if_neg (hlarge hsnap)
    rw [byte_of_no_inline hinline', syncedByte, if_neg h, blobByte, hblobs, hsha]
    cases hs : f.stagedChunks.lookup (p / cs) with
    | some r => rw [show f.snapshot.chunks.lookup (p / cs) = some r from hs]; rfl
    | none => rw [show f.snapshot.chunks.lookup (p / cs) = none from hs]; rfl

theorem File.fsync_reads (limits : Limits) :
    Readable cs (f.fsync limits) ∧ (f.fsync limits).row.size = f.size ∧
      ∀ p, (f.fsync limits).byte cs p = f.syncedByte limits cs p := by
  obtain ⟨stagedChunks, stagedSize, packID, hframe⟩ := fsync_frame hstaged hsized limits
  obtain ⟨hread, hsize, hbyte⟩ : Readable cs (f.sealActivePack.appendSyncRecords limits f.snapshot) ∧ _ ∧ _ :=
    if h : f.SyncsInline limits then commit_inline hstaged hsized hgrown hcs hpos hnonempty h rfl
    else commit_chunks hstaged hsized hgrown hcs hpos hinline h rfl
  rw [hframe]
  exact ⟨{ hread with }, hsize, hbyte⟩

end Sync

/-! A sync of some chunks. -/

/-- A sync leaves what is staged and the other chunks readable. -/
structure SyncKeeps (limits : Limits) (cs : Nat) (f : File) : Prop where
  staged : ∀ i r, f.stagedChunks.lookup i = some r →
    (f.fsync limits).readFile limits (i * cs) (r.data.take cs).length = r.data.take cs
  others : ∀ p, p < f.row.size → f.stagedChunks.lookup (p / cs) = none →
    (f.fsync limits).readFile limits p 1 = f.readFile limits p 1

/-- What the sync does not take over is nothing. A sync that keeps the file inline takes
chunk 0 if it is staged, and gives up the blobs of the others; if another chunk is staged, it
gives up that and the blob of chunk 0. A sync that writes chunks gives up inline data that go
beyond chunk 0, except where their chunks are staged. -/
def File.GivesUpNothing (limits : Limits) (cs : Nat) (f : File) : Prop :=
  f.stagedChunks.entries.length ≠ 0 →
    if f.SyncsInline limits then
      if (f.stagedChunks.lookup 0).isSome then ∀ p, cs ≤ p → f.blobByte cs p = 0
      else (∀ p, p < cs → f.blobByte cs p = 0) ∧ ∀ i r, f.stagedChunks.lookup i = some r →
        ∀ q, q < r.data.length → q < cs → f.blobByte cs (i * cs + q) = byteAt r.data q
    else ∀ p, f.stagedChunks.lookup (p / cs) = none → byteAt f.inlineData p = 0

theorem mul_add_div_mod {i q : Nat} (hq : q < cs) : (i * cs + q) / cs = i ∧ (i * cs + q) % cs = q := by
  rw [Nat.div_mod_unique (by omega), mul_comm]
  omega

/-- A read returns the data if each byte is that of the data. -/
theorem Readable.readFile_iff (h : Readable cs f) {offset : Nat} {data : List UInt8} (hne : data ≠ [])
    (hfits : offset + data.length ≤ f.row.size) :
    f.readFile limits offset data.length = data ↔ ∀ q, q < data.length → f.byte cs (offset + q) = byteAt data q := by
  have hpos := length_pos_iff.mpr hne
  have hlen : ((range f.row.size).map (f.byte cs)).length = f.row.size := by simp
  have hbyte (q) (hq : q < f.row.size) : byteAt ((range f.row.size).map (f.byte cs)) q = f.byte cs q := by
    simp [byteAt, hq]
  rw [h.readFile_eq hlen (fun q hq => hbyte q (hlen ▸ hq)), if_neg (by omega)]
  constructor
  · intro heq q hq
    rw [← hbyte _ (by omega), ← heq, byteAt_slice, if_pos (by omega)]
  · intro hbytes
    symm
    apply eq_slice
    · rw [hlen]
      omega
    · intro q hq
      rw [hbyte _ (by omega), hbytes q hq]

namespace Stored

variable (h : Stored cs f)
include h

/-- A sync keeps everything if it leaves each byte at its place. -/
theorem syncKeeps_iff_bytes (limits : Limits) (hstaged : 0 < f.stagedChunks.entries.length) :
    SyncKeeps limits cs f ↔
      (∀ i r, f.stagedChunks.lookup i = some r → ∀ q, q < r.data.length → q < cs →
        f.syncedByte limits cs (i * cs + q) = byteAt r.data q) ∧
      ∀ p, p < f.row.size → f.stagedChunks.lookup (p / cs) = none → f.syncedByte limits cs p = f.byte cs p := by
  have hpos := h.pos
  obtain ⟨hread, hsize, hbyte⟩ := fsync_reads hstaged h.sized h.grown h.chunkSize hpos
    (fun i r hr => (h.staged i r hr).1) (fun hne => h.inlineStaged hne (length_pos.mp hstaged)) limits
  have hchunk (i r) (hr : f.stagedChunks.lookup i = some r) :
      (f.fsync limits).readFile limits (i * cs) (r.data.take cs).length = r.data.take cs ↔
        ∀ q, q < r.data.length → q < cs → f.syncedByte limits cs (i * cs + q) = byteAt r.data q := by
    obtain ⟨hne, hfits⟩ := h.staged i r hr
    have hlen := length_pos_iff.mpr hne
    have hne' : r.data.take cs ≠ [] := length_pos_iff.mp (by rw [length_take]; omega)
    rw [hread.readFile_iff hne' (by rw [hsize, length_take]; omega)]
    simp only [length_take, hbyte, byteAt_take]
    refine ⟨fun hq q hlt hcs => ?_, fun hq q hlt => ?_⟩
    · rw [hq q (by omega), if_pos hcs]
    · rw [if_pos (by omega), hq q (by omega) (by omega)]
  have hother (p) (hp : p < f.row.size) : (f.fsync limits).readFile limits p 1 = f.readFile limits p 1 ↔
      f.syncedByte limits cs p = f.byte cs p := by
    have hgrown := h.grown
    rw [hread.readFile_one, h.readable.readFile_one, if_pos hp, if_pos (by omega), hbyte, singleton_inj]
  constructor
  · rintro ⟨hs, ho⟩
    exact ⟨fun i r hr => (hchunk i r hr).mp (hs i r hr), fun p hp hnone => (hother p hp).mp (ho p hp hnone)⟩
  · rintro ⟨hs, ho⟩
    exact ⟨fun i r hr => (hchunk i r hr).mpr (hs i r hr), fun p hp hnone => (hother p hp).mpr (ho p hp hnone)⟩

theorem blobByte_of_inline (hne : f.inlineData ≠ []) (p : Nat) : f.blobByte cs p = 0 :=
  blobByte_of_none ((h.inline hne).2 _)

/-- Chunk 0 is committed inline: the other chunks must hold nothing. -/
theorem syncKeeps_inline {r : StagedChunkReference} (hr : f.stagedChunks.lookup 0 = some r)
    (hinline : f.SyncsInline limits) : SyncKeeps limits cs f ↔ ∀ p, cs ≤ p → f.blobByte cs p = 0 := by
  have hpos := h.pos
  have hbyte (p) : f.syncedByte limits cs p = byteAt r.data p := by simp only [syncedByte, if_pos hinline, hr]
  have honly (i r') (hr' : f.stagedChunks.lookup i = some r') : i = 0 :=
    length_le_one.mp hinline.2.le i r' 0 r hr' hr
  simp only [h.syncKeeps_iff_bytes limits (Nat.lt_of_lt_of_eq one_pos hinline.2.symm), hbyte]
  -- what is staged beyond chunk 0 are the inline data
  have hother (p) (hp : cs ≤ p) : byteAt r.data p = f.byte cs p ↔ f.blobByte cs p = 0 := by
    rw [h.beyond r hr p hp]
    by_cases hne : f.inlineData = []
    · rw [hne, byteAt_nil, byte_of_no_inline hne, eq_comm]
    · exact iff_of_true (byte_of_inline hne p).symm (h.blobByte_of_inline hne p)
  have hchunk (p) : f.stagedChunks.lookup (p / cs) = none ↔ cs ≤ p := by
    rw [← not_lt, ← Nat.div_eq_zero_iff_lt hpos]
    refine ⟨fun hnone hzero => ?_, fun hne => ?_⟩
    · rw [hzero, hr] at hnone
      simp at hnone
    · exact eq_none_iff_forall_ne_some.mpr fun r' hr' => hne (honly _ r' hr')
  constructor
  · rintro ⟨-, ho⟩ p hp
    by_cases hlt : p < f.row.size
    · exact (hother p hp).mp (ho p hlt ((hchunk p).mpr hp))
    · exact h.blobByte_eq_zero (by omega)
  · intro hzero
    refine ⟨fun i r' hr' q _ _ => ?_, fun p _ hnone => (hother p ((hchunk p).mp hnone)).mpr (hzero p ((hchunk p).mp hnone))⟩
    obtain rfl := honly i r' hr'
    cases hr.symm.trans hr'
    rw [zero_mul, zero_add]

/-- Another chunk is taken for chunk 0: the rows must hold it already, and nothing in chunk 0. -/
theorem syncKeeps_misplaced (hnone : f.stagedChunks.lookup 0 = none) (hinline : f.SyncsInline limits) :
    SyncKeeps limits cs f ↔ (∀ p, p < cs → f.blobByte cs p = 0) ∧ ∀ i r, f.stagedChunks.lookup i = some r →
      ∀ q, q < r.data.length → q < cs → f.blobByte cs (i * cs + q) = byteAt r.data q := by
  have hpos := h.pos
  have hstaged : 0 < f.stagedChunks.entries.length := Nat.lt_of_lt_of_eq one_pos hinline.2.symm
  have hnil : f.inlineData = [] := by
    by_contra hne
    simpa [hnone] using h.inlineStaged hne (length_pos.mp hstaged)
  have hbyte (p) : f.syncedByte limits cs p = if p / cs = 0 then 0 else f.blobByte cs p := by
    simp only [syncedByte, if_pos hinline, hnone]
  simp only [h.syncKeeps_iff_bytes limits hstaged, hbyte, byte_of_no_inline hnil]
  rw [and_comm]
  refine and_congr ⟨fun ho p hp => ?_, fun hzero p _ _ => ?_⟩ ?_
  · have hdiv := Nat.div_eq_of_lt hp
    by_cases hlt : p < f.row.size
    · simpa [hdiv, eq_comm] using ho p hlt (by rw [hdiv]; exact hnone)
    · exact h.blobByte_eq_zero (by omega)
  · split
    case isTrue hdiv => exact (hzero p ((Nat.div_eq_zero_iff_lt hpos).mp hdiv)).symm
    case isFalse => rfl
  · refine forall₃_congr fun i r hr => forall₃_congr fun q _ hq => ?_
    have hi : i ≠ 0 := by
      rintro rfl
      simp [hnone] at hr
    rw [(mul_add_div_mod hq).1, if_neg hi]

/-- Chunks are committed as blobs: inline data beyond them are given up. -/
theorem syncKeeps_chunks (hstaged : 0 < f.stagedChunks.entries.length) (hlarge : ¬ f.SyncsInline limits) :
    SyncKeeps limits cs f ↔ ∀ p, f.stagedChunks.lookup (p / cs) = none → byteAt f.inlineData p = 0 := by
  have hkept (i r) (hr : f.stagedChunks.lookup i = some r) (q) (hq : q < cs) :
      f.syncedByte limits cs (i * cs + q) = byteAt r.data q := by
    obtain ⟨hdiv, hmod⟩ := mul_add_div_mod (i := i) hq
    have hr' : f.stagedChunks.lookup ((i * cs + q) / cs) = some r := hdiv.symm ▸ hr
    simp only [syncedByte, if_neg hlarge, hmod, hr']
  have hother (p) (hnone : f.stagedChunks.lookup (p / cs) = none) :
      f.syncedByte limits cs p = f.byte cs p ↔ byteAt f.inlineData p = 0 := by
    have hbyte : f.syncedByte limits cs p = f.blobByte cs p := by simp only [syncedByte, if_neg hlarge, hnone]
    rw [hbyte]
    by_cases hne : f.inlineData = []
    · rw [byte_of_no_inline hne, hne]
      exact iff_of_true rfl rfl
    · rw [h.blobByte_of_inline hne, byte_of_inline hne, eq_comm]
  rw [h.syncKeeps_iff_bytes limits hstaged]
  constructor
  · rintro ⟨-, ho⟩ p hnone
    by_cases hp : p < f.row.size
    · exact (hother p hnone).mp (ho p hp hnone)
    · by_cases hne : f.inlineData = []
      · rw [hne, byteAt_nil]
      · exact byteAt_of_length_le ((h.inline hne).1.trans (by omega))
  · intro hzero
    exact ⟨fun i r hr q _ hq => hkept i r hr q hq, fun p _ hnone => (hother p hnone).mpr (hzero p hnone)⟩

end Stored

/-- The files of volumes whose chunks are not shorter than inline data. -/
theorem WellFormed.stored (h : WellFormed limits cs f) : Stored cs f := by
  have hrows := h.rows
  refine ⟨⟨hrows.pos, hrows.chunkSize, hrows.sha256, hrows.content, fun i d hd => ?_, fun hne => ?_⟩, fun i r hr => ?_,
    fun r hr p hp => ?_, h.staged.sized, h.staged.inline, h.grown⟩
  · have hfits := hrows.fits i
    have hshort := hrows.short i
    rw [hrows.committed_of_blob hd] at hfits hshort
    exact ⟨hrows.blobs i d hd, hshort, hfits (hrows.blobs i d hd)⟩
  · have hfits := hrows.fits 0 (by rwa [committed_zero hne])
    rw [committed_zero hne, zero_mul, zero_add] at hfits
    exact ⟨hfits, (hrows.inline hne).2⟩
  · exact ⟨h.staged.nonempty i r hr, h.staged.fits i r hr⟩
  · have hshort := h.staged.short 0 r hr
    have hinline : f.inlineData.length ≤ cs := by
      by_cases hne : f.inlineData = []
      · rw [hne]
        exact Nat.zero_le _
      · exact (hrows.inline hne).1.trans hrows.maxInline
    rw [byteAt_of_length_le (by omega), byteAt_of_length_le (by omega)]

/-- How many bytes of a staged chunk a truncate leaves that counts in chunks of `cs` bytes. -/
def bytesLeft (cs size i length : Nat) : Nat :=
  if size ≤ i * cs then 0 else if size < i * cs + cs then min (size - i * cs) length else length

/-- The limits with which only a file that ends in its first chunk is inline. -/
def Limits.within (limits : Limits) (cs : Nat) : Limits := { limits with maxInlineLen := min limits.maxInlineLen cs }

theorem File.cutChunk_congr {cs' size packID i : Nat} {r : StagedChunkReference} (hne : r.data ≠ [])
    (h : bytesLeft cs' size i r.data.length = bytesLeft cs size i r.data.length) :
    cutChunk cs' size packID i r = cutChunk cs size packID i r := by
  have hpos := length_pos_iff.mpr hne
  unfold bytesLeft at h
  unfold cutChunk
  -- where both cut the chunk, they leave the same number of bytes
  split_ifs at h ⊢ <;> first | rfl | omega | rw [show size - i * cs' = size - i * cs by omega]

/-- The volume is opened with another chunk size. -/
theorem Represents.reopened {limits' : Limits} {content : List UInt8} (h : Represents limits cs f content)
    (hinline : limits'.maxInlineLen = limits.maxInlineLen) : Represents limits' cs f content := by
  obtain ⟨⟨hrows, hstaged, hgrown⟩, hsize, hbytes⟩ := h
  have hrows' : RowsOk limits' cs f :=
    { hrows with maxInline := hinline ▸ hrows.maxInline, inline := hinline ▸ hrows.inline }
  exact ⟨⟨hrows', hstaged, hgrown⟩, hsize, hbytes⟩

/-- Chunk `i` is staged and begins below the new size. -/
def File.StagedBelow (cs size : Nat) (f : File) (i : Nat) : Prop := (f.stagedChunks.lookup i).isSome ∧ i * cs < size

/-- Where a truncate or the sync after it makes the file inline, all of it is in chunk 0. -/
def File.InlineInFirst (limits : Limits) (cs size : Nat) (f : File) : Prop :=
  FitsInline limits size f ∨ size ≤ limits.maxInlineLen ∧ (∃! i, f.StagedBelow cs size i) →
    (∀ i, i ≠ 0 → i * cs < size → f.blob i = none) ∧ ∀ i, f.StagedBelow cs size i → f.StagedBelow cs size 0

section Truncate

variable {size : Nat}

theorem File.committed_of_none {i : Nat} (hi : i ≠ 0) (h : f.blob i = none) : f.committed i = [] := by
  rw [committed, if_neg fun hn => hi hn.1, h]
  rfl

/-- The rows hold what they held below the new size, unless the file becomes inline while another
chunk than chunk 0 has a row there. -/
theorem RowsOk.truncateRows_reads (h : RowsOk (limits.within cs) cs f)
    (hothers : FitsInline limits size f → ∀ i, i ≠ 0 → i * cs < size → f.blob i = none) {g : File}
    (hg : f.truncateRows limits size = g) :
    (FitsInline limits size f ∨ Truncates (limits.within cs) cs size f g) ∧ Readable cs g ∧ g.row.size = size ∧
      (g.stagedChunks = f.stagedChunks ∧ g.stagedSize = f.stagedSize) ∧
      (∀ p, p < size → g.byte cs p = f.committedByte cs p) ∧ ∀ p, cs ≤ p → g.byte cs p = g.blobByte cs p := by
  have hpos := h.pos
  by_cases hfits : size ≠ 0 ∧ FitsInline limits size f
  · obtain ⟨hframe, hinline, hblob⟩ := h.readable.truncateRows_fits h.loaded_getOrLoadInode hfits.1 hfits.2 hg
    have hne : g.inlineData ≠ [] := by
      rw [hinline, ← length_pos_iff, length_resize]
      exact Nat.pos_of_ne_zero hfits.1
    have hbeyond (p) (hp : cs ≤ p) : byteAt (f.committed 0) p = 0 := byteAt_of_length_le ((h.short 0).trans hp)
    have hread : Readable cs g :=
      ⟨hpos, by rw [hframe]; exact h.chunkSize, by rw [hframe], by rw [hframe]; exact nofun⟩
    refine ⟨.inl hfits.2, hread, by rw [hframe], by rw [hframe]; exact ⟨rfl, rfl⟩, fun p hp => ?_, fun p hp => ?_⟩
    · rw [byte_of_inline hne, hinline, byteAt_resize, if_pos hp, committedByte]
      by_cases hdiv : p / cs = 0
      · rw [hdiv, Nat.mod_eq_of_lt ((Nat.div_eq_zero_iff_lt hpos).mp hdiv)]
      · have hsplit := div_mul_add_mod hpos p
        rw [hbeyond p (not_lt.mp fun hlt => hdiv (Nat.div_eq_of_lt hlt)),
          committed_of_none hdiv (hothers hfits.2 _ hdiv (by omega)), byteAt_nil]
    · rw [byte_of_inline hne, hinline, byteAt_resize, hbeyond p hp, ite_self, blobByte_of_none (hblob _)]
  · -- as where only a file that ends in its first chunk is inline
    have hsame : f.truncateRows limits size = f.truncateRows (limits.within cs) size := by
      by_cases hzero : size = 0
      · rw [truncateRows, truncateRows, if_pos hzero, if_pos hzero]
      · have hlarge : ¬ FitsInline limits size f := fun hn => hfits ⟨hzero, hn⟩
        have hlarge' : ¬ FitsInline (limits.within cs) size f := fun hn => hlarge ⟨hn.1.trans (min_le_left _ _), hn.2⟩
        rw [truncateRows, truncateRows, if_neg hzero, if_neg hzero, if_neg hlarge, if_neg hlarge']
        rfl
    have htrunc := truncates h size
    rw [← hsame, hg] at htrunc
    refine ⟨.inr htrunc, htrunc.rows.readable, htrunc.rowSize, by rw [htrunc.frame]; exact ⟨rfl, rfl⟩, fun p hp => ?_,
      fun p hp => ?_⟩
    · rw [htrunc.rows.byte_eq, htrunc.bytes, if_pos hp]
    · by_cases hnil : g.inlineData = []
      · exact byte_of_no_inline hnil p
      · obtain ⟨hshort, hblob⟩ := htrunc.rows.inline hnil
        rw [byte_of_inline hnil, blobByte_of_none (hblob _)]
        exact byteAt_of_length_le ((hshort.trans htrunc.rows.maxInline).trans hp)

/-- The rows are cut after the staged chunks, and the file is synced. -/
theorem StagedOk.truncateRows_synced (hrows : RowsOk (limits.within cs) cs f) (h : StagedOk cs f)
    (hsize : ∀ n, f.stagedSize = some n → n = size) (hbelow : ∀ i r, f.stagedChunks.lookup i = some r → i * cs < size)
    (hinline : f.InlineInFirst limits cs size) :
    let g := (f.truncateRows limits size).fsync limits
    Readable cs g ∧ g.row.size = size ∧ ∀ p, p < size → g.byte cs p = f.currentByte cs p := by
  have hpos := hrows.pos
  have hstaged {i r} (hr : f.stagedChunks.lookup i = some r) : f.StagedBelow cs size i :=
    ⟨isSome_of_eq_some hr, hbelow i r hr⟩
  obtain ⟨hcase, hread, hrow, ⟨hchunks, hstagedSize⟩, hbyte, hbeyond⟩ :=
    hrows.truncateRows_reads (fun hfits => (hinline (.inl hfits)).1) rfl
  generalize f.truncateRows limits size = g at *
  have hgsize : g.size = size := by
    rw [File.size, hstagedSize, hrow]
    cases hs : f.stagedSize with
    | none => rfl
    | some n => exact hsize n hs
  by_cases hnone : g.stagedChunks.entries.length = 0
  · rw [fsync, if_pos hnone]
    refine ⟨{ hread with }, hrow, fun p hp => (hbyte p hp).trans ?_⟩
    rw [currentByte, current_of_none (hchunks ▸ length_eq_zero.mp hnone _), committedByte]
  · obtain ⟨i, r, hr⟩ := length_pos.mp (Nat.pos_of_ne_zero hnone)
    rw [hchunks] at hr
    have hzero (hne : g.inlineData ≠ []) : (g.stagedChunks.lookup 0).isSome := by
      obtain hfits | htrunc := hcase
      · rw [hchunks]
        exact ((hinline (.inl hfits)).2 i (hstaged hr)).1
      · exact (h.truncates htrunc hbelow).inline hne ⟨i, r, hchunks ▸ hr⟩
    have hsized : g.Sized := by
      rw [Sized, hstagedSize, hchunks]
      exact h.sized
    obtain ⟨hread', hsize', hbyte'⟩ := fsync_reads (Nat.pos_of_ne_zero hnone) hsized (by omega) hread.chunkSize hpos
      (fun i r hr => h.nonempty i r (hchunks ▸ hr)) hzero limits
    refine ⟨hread', hsize'.trans hgsize, fun p hp => (hbyte' p).trans ?_⟩
    have hsplit := div_mul_add_mod hpos p
    rw [syncedByte, currentByte, hchunks]
    by_cases hsync : g.SyncsInline limits
    · -- all of it is in chunk 0, which alone is staged
      have honly {j r'} (hr' : f.stagedChunks.lookup j = some r') : j = i :=
        length_le_one.mp (hchunks ▸ hsync.2.le) j r' i r hr' hr
      obtain ⟨hothers, hfirst⟩ := hinline (.inr ⟨hgsize ▸ hsync.1, i, hstaged hr, fun j hj =>
        honly (isSome_iff_exists.mp hj.1).choose_spec⟩)
      obtain ⟨r₀, hr₀⟩ := isSome_iff_exists.mp (hfirst i (hstaged hr)).1
      simp only [if_pos hsync, hr₀]
      by_cases hdiv : p / cs = 0
      · rw [hdiv, current_of_staged hr₀, Nat.mod_eq_of_lt ((Nat.div_eq_zero_iff_lt hpos).mp hdiv)]
      · have hle : cs ≤ p := not_lt.mp fun hlt => hdiv (Nat.div_eq_of_lt hlt)
        have hnone : f.stagedChunks.lookup (p / cs) = none :=
          eq_none_iff_forall_ne_some.mpr fun r' hr' => hdiv ((honly hr').trans (honly hr₀).symm)
        rw [current_of_none hnone, committed_of_none hdiv (hothers _ hdiv (by omega)), byteAt_nil]
        exact byteAt_of_length_le ((h.short 0 r₀ hr₀).trans hle)
    · rw [if_neg hsync]
      cases hs : f.stagedChunks.lookup (p / cs) with
      | some r' => rw [current_of_staged hs]
      | none =>
        rw [current_of_none hs, ← committedByte, ← hbyte p hp]
        by_cases hdiv : p / cs = 0
        · -- inline data are staged along with any chunk
          have hnil : g.inlineData = [] := by
            by_contra hne
            rw [hdiv] at hs
            simpa [hchunks, hs] using hzero hne
          exact (byte_of_no_inline hnil p).symm
        · exact (hbeyond p (not_lt.mp fun hlt => hdiv (Nat.div_eq_of_lt hlt))).symm

end Truncate

end InClusterStorage.Controller
