import InClusterStorage.Node.OneFile

/- The three copies of a file's bytes: in the node's memory, at the controller, and as the
   calls have made them.

   `FileOk` ties them together: a chunk in memory has the bytes of the content, and where
   the controller has other bytes a dirty chunk covers them; a loaded manifest is right for
   what is not dirty. Under it every `Read` returns the content, from whichever source a
   chunk comes (`FileOk.read`), and a sync brings the controller to it
   (`FileOk.syncAndFsync`). -/
namespace InClusterStorage.Node

open Bytes Table NodeCache List Option DirtyChunks FileConfig
open Controller (chunkRange expectedChunkLength mem_chunkRange div_mul_add_mod div_eq expectedChunkLength_eq)

theorem byteAt_map_range' (f : Nat → UInt8) (first count p : Nat) :
    byteAt ((List.range' first count).map f) p = if p < count then f (first + p) else 0 := by
  unfold byteAt
  rw [getElem?_map]
  by_cases hp : p < count
  · rw [if_pos hp, getElem?_range' hp, one_mul]
    rfl
  · rw [if_neg hp, getElem?_eq_none (by rw [length_range']; omega)]
    rfl

theorem map_byteAt_range' (content : List UInt8) {chunk : List UInt8} (start : Nat) {first count : Nat}
    (hlen : start + (first + count) ≤ content.length)
    (h : ∀ q, q < first + count → byteAt chunk q = byteAt content (start + q)) :
    (List.range' first count).map (byteAt chunk) = slice content (start + first) (start + (first + count)) := by
  apply eq_slice
  · rw [length_map, length_range']
    omega
  · intro q hq
    rw [length_map, length_range'] at hq
    rw [byteAt_map_range', if_pos hq, h _ (by omega), add_assoc]

/-! Chunks of the content. -/

/-- A chunk that is filled up with zeros to its length in the file. -/
theorem readPart_eq {cs i : Nat} {content data : List UInt8} (hle : data.length ≤ min (content.length - i * cs) cs)
    (h : ∀ q, q < cs → byteAt data q = byteAt content (i * cs + q)) {offset size : Nat} (hi : i * cs < offset + size) :
    readPart cs offset size content.length i data = chunkPart content cs offset (offset + size) i := by
  unfold readPart
  simp only [expectedChunkLength_eq]
  have hpad : (if 0 < content.length ∧ data.length < min (content.length - i * cs) cs then
      resize (min (content.length - i * cs) cs) data else data) = slice content (i * cs) (i * cs + cs) := by
    split
    case isTrue =>
      apply eq_slice
      · rw [length_resize]
        omega
      · intro q hq
        rw [length_resize] at hq
        rw [byteAt_resize, if_pos hq, h q (by omega)]
    case isFalse hfull =>
      apply eq_slice
      · omega
      · intro q hq
        exact h q (by omega)
  rw [hpad, slice_slice]
  congr 1 <;> omega

/-- What the controller returns of a chunk. -/
abbrev fileChunk (file : List UInt8) (i : Nat) : List UInt8 := readFile file (i * defaultChunkSize) defaultChunkSize

namespace IsChunk

variable {content data : List UInt8} {i : Nat}

theorem length_le (h : IsChunk content i data) :
    data.length ≤ min (content.length - i * defaultChunkSize) defaultChunkSize := by
  obtain ⟨hshort, rfl | hfits, -⟩ := h
  · exact Nat.zero_le _
  · omega

theorem byteAt_eq (h : IsChunk content i data) {q : Nat} (hq : q < defaultChunkSize) :
    byteAt data q = byteAt content (i * defaultChunkSize + q) := h.2.2 q hq

theorem of_readFile {file : List UInt8} (hlen : file.length ≤ content.length)
    (hbytes : ∀ q, q < defaultChunkSize →
      byteAt file (i * defaultChunkSize + q) = byteAt content (i * defaultChunkSize + q)) :
    IsChunk content i (fileChunk file i) := by
  unfold fileChunk readFile
  refine ⟨?_, ?_, fun q hq => ?_⟩
  · rw [length_slice]
    omega
  · by_cases hout : file.length ≤ i * defaultChunkSize
    · left
      apply eq_nil_of_length_eq_zero
      rw [length_slice]
      omega
    · right
      rw [length_slice]
      omega
  · rw [byteAt_slice, if_pos (by omega), hbytes q hq]

theorem readPart (h : IsChunk content i data) {offset size : Nat} (hi : i * defaultChunkSize < offset + size) :
    readPart defaultChunkSize offset size content.length i data =
      chunkPart content defaultChunkSize offset (offset + size) i :=
  readPart_eq h.length_le (fun _ => h.byteAt_eq) hi

end IsChunk

theorem flatMap_chunkRange {cs offset stop : Nat} (hcs : 0 < cs) (h : offset < stop) (content : List UInt8)
    (part : Nat → List UInt8)
    (hpart : ∀ i ∈ chunkRange cs offset stop, part i = chunkPart content cs offset stop i) :
    (chunkRange cs offset stop).flatMap part = slice content offset stop := by
  have hfirst := div_mul_add_mod hcs offset
  have hlast := div_mul_add_mod hcs (stop - 1)
  have hle : offset / cs ≤ (stop - 1) / cs := Nat.div_le_div_right (by omega)
  unfold chunkRange at hpart ⊢
  rw [flatMap_slice part _ _ fun i h₁ h₂ => hpart i (by rw [mem_range'_1]; exact ⟨h₁, h₂⟩)]
  have hend : (offset / cs + ((stop - 1) / cs + 1 - offset / cs)) * cs = (stop - 1) / cs * cs + cs := by
    rw [show offset / cs + ((stop - 1) / cs + 1 - offset / cs) = (stop - 1) / cs + 1 by omega, Nat.succ_mul]
  congr 1 <;> omega

/-! The entry. -/

/-- The entry has the size and, in its chunks, the bytes of the content, and where the
controller has others a dirty chunk covers them. -/
structure EntryOk (e : CachedEntry) (file content : List UInt8) : Prop where
  chunkSize : e.chunkSize = defaultChunkSize
  sizeGen : e.sizeGen = 0
  size : e.size = content.length
  chunks : ∀ i chunk, e.chunks.lookup i = some chunk → chunk ≠ [] ∧ IsChunk content i chunk
  marked : ∀ i gen, e.dirtyChunks.lookup i = some gen → (e.chunks.lookup i).isSome
  bytes : ∀ p, byteAt file p = byteAt content p ∨
    ∃ gen chunk, e.dirtyChunks.lookup (p / defaultChunkSize) = some gen ∧
      e.chunks.lookup (p / defaultChunkSize) = some chunk ∧ p % defaultChunkSize < chunk.length
  fileLength : file.length ≤ content.length
  grown : file.length < content.length → ∃ i gen chunk, e.dirtyChunks.lookup i = some gen ∧
    e.chunks.lookup i = some chunk ∧ content.length ≤ i * defaultChunkSize + chunk.length

namespace EntryOk

variable {e : CachedEntry} {file content : List UInt8}

theorem chunkSizeOf (h : EntryOk e file content) : e.chunkSizeOf = defaultChunkSize := by
  rw [CachedEntry.chunkSizeOf, h.chunkSize, if_neg defaultChunkSize_ne_zero]

theorem dirty_iff (h : EntryOk e file content) : e.Dirty ↔ ∃ i gen, e.dirtyChunks.lookup i = some gen := by
  rw [CachedEntry.dirty_iff, h.sizeGen]
  simp

theorem of_same (hchunkSize : e.chunkSize = defaultChunkSize) (hsizeGen : e.sizeGen = 0) (hsize : e.size = content.length)
    (hchunks : ∀ i chunk, e.chunks.lookup i = some chunk → chunk ≠ [] ∧ IsChunk content i chunk)
    (hmarked : ∀ i gen, e.dirtyChunks.lookup i = some gen → (e.chunks.lookup i).isSome) : EntryOk e content content :=
  ⟨hchunkSize, hsizeGen, hsize, hchunks, hmarked, fun _ => .inl rfl, le_rfl, fun hlt => absurd hlt (lt_irrefl _)⟩

theorem empty {size : Nat} (hsize : size = content.length) (lastRead generation : Nat) :
    EntryOk { size, lastRead, generation } content content :=
  of_same rfl rfl hsize nofun nofun

variable {i : Nat}

section

variable (h : EntryOk e file content)
include h

theorem byteAt_of_unmarked {p : Nat} (hm : e.dirtyChunks.lookup (p / defaultChunkSize) = none) :
    byteAt file p = byteAt content p := by
  obtain heq | ⟨gen, -, hgen, -⟩ := h.bytes p
  · exact heq
  · rw [hm] at hgen
    cases hgen

theorem byteAt_chunk {q : Nat} (hm : e.dirtyChunks.lookup i = none) (hq : q < defaultChunkSize) :
    byteAt file (i * defaultChunkSize + q) = byteAt content (i * defaultChunkSize + q) := by
  have hdiv : (i * defaultChunkSize + q) / defaultChunkSize = i := (div_eq defaultChunkSize_pos).mpr (by omega)
  exact h.byteAt_of_unmarked (by rwa [hdiv])

theorem isChunk_readFile (hm : e.dirtyChunks.lookup i = none) : IsChunk content i (fileChunk file i) :=
  IsChunk.of_readFile h.fileLength fun _ => h.byteAt_chunk hm

theorem file_eq (hclean : ∀ i, e.dirtyChunks.lookup i = none) : file = content := by
  apply Bytes.ext
  · have hle := h.fileLength
    by_contra hne
    obtain ⟨i, gen, -, hgen, -⟩ := h.grown (by omega)
    rw [hclean i] at hgen
    cases hgen
  · exact fun p _ => h.byteAt_of_unmarked (hclean _)

theorem file_eq_of_not_dirty (hclean : ¬ e.Dirty) : file = content :=
  h.file_eq (CachedEntry.mark_of_not_dirty hclean)

theorem congr {e' : CachedEntry} (hsize : e'.size = e.size)
    (hchunkSize : e'.chunkSize = e.chunkSize) (hsizeGen : e'.sizeGen = e.sizeGen) (hchunks : e'.chunks = e.chunks)
    (hmarks : e'.dirtyChunks = e.dirtyChunks) : EntryOk e' file content where
  chunkSize := hchunkSize.trans h.chunkSize
  sizeGen := hsizeGen.trans h.sizeGen
  size := hsize.trans h.size
  chunks := hchunks ▸ h.chunks
  marked := hmarks ▸ hchunks ▸ h.marked
  bytes := hmarks ▸ hchunks ▸ h.bytes
  fileLength := h.fileLength
  grown := hmarks ▸ hchunks ▸ h.grown

theorem fill {now : Nat} (hkeeps : ¬ e.Keeps i (i * defaultChunkSize)) (hne : fileChunk file i ≠ []) :
    EntryOk (e.fill i defaultChunkSize file.length (fileChunk file i) now) file content := by
  have hmark : e.dirtyChunks.lookup i = none := by
    cases hm : e.dirtyChunks.lookup i with
    | none => rfl
    | some gen => exact absurd (.inl (by rw [hm]; rfl)) hkeeps
  have hdata := h.isChunk_readFile hmark
  generalize fileChunk file i = data at hne hdata ⊢
  have htaken : e.taken (i * defaultChunkSize) data = data := by
    -- the controller is not ahead of the content, so nothing is cut off
    unfold CachedEntry.taken
    split
    · rw [take_of_length_le]
      have hle := hdata.length_le
      rw [h.size]
      omega
    · rfl
  have hchunks : (e.fill i defaultChunkSize file.length data now).chunks = e.chunks.insert i data := by
    rw [CachedEntry.fill, htaken]
  have hlookup (j) (hj : j ≠ i) : (e.fill i defaultChunkSize file.length data now).chunks.lookup j = e.chunks.lookup j := by
    exact AList.lookup_insert_ne hj
  have hother : ∀ {j gen}, e.dirtyChunks.lookup j = some gen → j ≠ i := by
    intro j gen hj heq
    rw [heq, hmark] at hj
    cases hj
  refine { chunkSize := rfl, sizeGen := h.sizeGen, size := ?_, chunks := ?_, marked := ?_, bytes := ?_,
           fileLength := h.fileLength, grown := ?_ }
  · have hle := h.fileLength
    show (if ¬ e.Dirty ∧ e.size < file.length then file.length else e.size) = _
    rw [h.size, if_neg (by omega)]
  · rw [hchunks]
    exact forall_insert ⟨hne, hdata⟩ h.chunks
  · intro j gen hj
    rw [hlookup j (hother hj)]
    exact h.marked j gen hj
  · intro p
    obtain heq | ⟨gen, chunk, hgen, hchunk, hlt⟩ := h.bytes p
    · exact .inl heq
    · exact .inr ⟨gen, chunk, hgen, (hlookup _ (hother hgen)).trans hchunk, hlt⟩
  · intro hlt
    obtain ⟨j, gen, chunk, hgen, hchunk, hend⟩ := h.grown hlt
    exact ⟨j, gen, chunk, hgen, (hlookup _ (hother hgen)).trans hchunk, hend⟩

end

theorem fill_new {now gen : Nat} (hne : fileChunk content i ≠ []) :
    EntryOk
      (CachedEntry.fill i defaultChunkSize content.length (fileChunk content i) now
        { size := content.length, lastRead := now, generation := gen }) content content := by
  have hempty : EntryOk { size := content.length, lastRead := now, generation := gen } content content := .empty rfl now gen
  apply hempty.fill _ hne
  rintro (hmark | hdirty)
  · cases hmark
  · obtain ⟨j, g, hj⟩ := hempty.dirty_iff.mp hdirty.1
    cases hj

end EntryOk

/-! The cache and the manifest. -/

/-- The entry of the file is right; where there is none the controller has the content. -/
structure CacheOk (inode : Nat) (c : NodeCache) (file content : List UInt8) : Prop where
  absent : c.entries.lookup inode = none → file = content
  entry : ∀ e, c.entries.lookup inode = some e → EntryOk e file content

namespace CacheOk

variable {inode : Nat} {c c' : NodeCache} {file content : List UInt8}

section

variable (h : CacheOk inode c file content)
include h

theorem of_kept (hkept : Kept (c.entries.lookup inode) (c'.entries.lookup inode)) : CacheOk inode c' file content where
  absent hl := by
    obtain heq | hgone := hkept
    · exact h.absent (heq ▸ hl)
    · cases hold : c.entries.lookup inode with
      | none => exact h.absent hold
      | some e => exact (h.entry e hold).file_eq_of_not_dirty (hgone.2 e hold)
  entry e hl := h.entry e (hkept.of_some hl)

variable (inode file content) in
/-- The cache stays right, and what is dirty stays so. -/
structure Undisturbed (c c' : NodeCache) : Prop where
  ok : CacheOk inode c' file content
  marks : ∀ i, c'.markAt inode i = c.markAt inode i

theorem refl : Undisturbed inode file content c c := ⟨h, fun _ => rfl⟩

omit h in
theorem Undisturbed.trans {c'' : NodeCache} (h : Undisturbed inode file content c c')
    (h' : Undisturbed inode file content c' c'') : Undisturbed inode file content c c'' :=
  ⟨h'.ok, fun i => (h'.marks i).trans (h.marks i)⟩

omit h in
theorem foldl {σ α : Type} (cache : σ → NodeCache) {f : σ → α → σ} (l : List α)
    (hf : ∀ x a, CacheOk inode (cache x) file content → Undisturbed inode file content (cache x) (cache (f x a))) :
    ∀ x, CacheOk inode (cache x) file content → Undisturbed inode file content (cache x) (cache (l.foldl f x)) := by
  induction l with
  | nil => exact fun _ h => h.refl
  | cons a l ih =>
    intro x h
    have hfirst := hf x a h
    exact hfirst.trans (ih (f x a) hfirst.ok)

theorem touch (now : Nat) : Undisturbed inode file content c (c.touch inode now) := by
  have hl : (c.touch inode now).entries.lookup inode = (c.entries.lookup inode).map
      fun e => { e with lastRead := now } := by
    rw [lookup_touch, if_pos rfl]
  refine ⟨⟨fun hnone => ?_, fun e he => ?_⟩, fun i => ?_⟩
  · rw [hl, map_eq_none_iff] at hnone
    exact h.absent hnone
  · rw [hl] at he
    obtain ⟨e', he', rfl⟩ := map_eq_some_iff.mp he
    exact (h.entry e' he').congr rfl rfl rfl rfl rfl
  · unfold markAt
    rw [hl]
    cases c.entries.lookup inode <;> rfl

theorem getChunk (i now : Nat) : Undisturbed inode file content c (c.getChunk inode i now).1 := by
  unfold NodeCache.getChunk
  cases (c.entries.lookup inode).bind (·.chunks.lookup i) with
  | none => exact h.refl
  | some chunk => exact h.touch now

end

variable {i : Nat}

section

variable (h : CacheOk inode c file content)
include h

theorem putChunk (gen now : Nat) (hne : fileChunk file i ≠ []) :
    Undisturbed inode file content c (c.putChunk inode i defaultChunkSize file.length (fileChunk file i) gen now) := by
  refine ⟨?_, fun j => markAt_putChunk _ _ defaultChunkSize_ne_zero ..⟩
  obtain hkept | ⟨-, -, hkeeps, hl⟩ := c.lookup_putChunk inode i defaultChunkSize_ne_zero file.length
    (fileChunk file i) gen now inode
  · exact h.of_kept hkept
  · refine ⟨fun hnone => ?_, fun e he => ?_⟩
    · rw [hnone] at hl
      cases hl
    · rw [hl, some.injEq] at he
      subst he
      cases hold : c.entries.lookup inode with
      | none =>
        obtain rfl := h.absent hold
        rw [entryFor_of_none hold]
        exact EntryOk.fill_new hne
      | some old =>
        rw [entryFor_of_some hold] at hkeeps ⊢
        exact (h.entry old hold).fill hkeeps hne

theorem isChunk_readFile (hm : c.markAt inode i = none) : IsChunk content i (fileChunk file i) := by
  cases hl : c.entries.lookup inode with
  | none =>
    obtain rfl := h.absent hl
    exact IsChunk.of_readFile le_rfl fun _ _ => rfl
  | some e =>
    rw [markAt_of_lookup hl] at hm
    exact (h.entry e hl).isChunk_readFile hm

theorem file_eq (hclean : ∀ i, c.markAt inode i = none) : file = content := by
  cases hl : c.entries.lookup inode with
  | none => exact h.absent hl
  | some e =>
    apply (h.entry e hl).file_eq
    intro i
    rw [← markAt_of_lookup hl]
    exact hclean i

theorem fileLength : file.length ≤ content.length := by
  cases hl : c.entries.lookup inode with
  | none => rw [h.absent hl]
  | some e => exact (h.entry e hl).fileLength

theorem markAt_of_absent (hc : c.chunkAt inode i = none) : c.markAt inode i = none := by
  cases hl : c.entries.lookup inode with
  | none =>
    rw [markAt, hl]
    rfl
  | some e =>
    rw [chunkAt_of_lookup hl] at hc
    rw [markAt_of_lookup hl]
    cases hm : e.dirtyChunks.lookup i with
    | none => rfl
    | some gen =>
      have hsome := (h.entry e hl).marked i gen hm
      rw [hc] at hsome
      cases hsome

theorem isChunk_of_chunkAt {chunk : List UInt8} (hc : c.chunkAt inode i = some chunk) : IsChunk content i chunk := by
  obtain ⟨e, hl, hchunk⟩ := bind_eq_some_iff.mp hc
  exact ((h.entry e hl).chunks i chunk hchunk).2

end

end CacheOk

/-- A loaded manifest is right for the chunks that are not dirty, and in its size if none is. -/
structure ManifestOk (inode : Nat) (c : NodeCache) (content : List UInt8) (m : Manifest) : Prop where
  chunkSize : m.chunkSize = defaultChunkSize
  totalSize : (∀ i, c.markAt inode i = none) → m.totalSize = content.length
  shas : ∀ i data, c.markAt inode i = none → m.sha i = some data → IsChunk content i data
  inline : c.markAt inode 0 = none → m.inlineData ≠ [] → IsChunk content 0 m.inlineData

theorem ManifestOk.of_marks {inode : Nat} {c c' : NodeCache} {content : List UInt8} {m : Manifest}
    (h : ManifestOk inode c content m) (hmarks : ∀ i, c'.markAt inode i = c.markAt inode i) :
    ManifestOk inode c' content m where
  chunkSize := h.chunkSize
  totalSize hclean := h.totalSize fun i => (hmarks i).symm.trans (hclean i)
  shas i data hm := h.shas i data ((hmarks i).symm.trans hm)
  inline hm := h.inline ((hmarks 0).symm.trans hm)

theorem CacheOk.manifest {inode : Nat} {c : NodeCache} {file content : List UInt8} {m : Manifest}
    (h : CacheOk inode c file content) (hm : m.Describes file) : ManifestOk inode c content m := by
  have hchunk (i data) (hmark : c.markAt inode i = none) (hdata : IsChunk file i data) : IsChunk content i data := by
    have hle := h.fileLength
    refine ⟨hdata.1, hdata.2.1.imp_right (by omega), fun q hq => ?_⟩
    rw [hdata.byteAt_eq hq]
    cases hl : c.entries.lookup inode with
    | none => rw [h.absent hl]
    | some e =>
      rw [markAt_of_lookup hl] at hmark
      exact (h.entry e hl).byteAt_chunk hmark hq
  refine ⟨hm.chunkSize, fun hclean => ?_, fun i data hmark hsha => ?_, fun hmark hne => ?_⟩
  · rw [hm.totalSize, h.file_eq hclean]
  · have hlt : i < m.chunkSHAs.length := by
      by_contra hge
      rw [Manifest.sha, getElem?_eq_none (by omega)] at hsha
      cases hsha
    exact hchunk i data hmark (hm.shas i hlt data hsha)
  · exact hchunk 0 _ hmark (hm.inline hne)

structure FileOk (cfg : FileConfig) (s : FileState) : Prop where
  cache : CacheOk cfg.inode s.cache s.file s.content
  manifest : ∀ m, s.manifest = some m → ManifestOk cfg.inode s.cache s.content m

theorem FileOk.with_cache {cfg : FileConfig} {s : FileState} (h : FileOk cfg s) {cache : NodeCache}
    (hcache : CacheOk.Undisturbed cfg.inode s.file s.content s.cache cache) : FileOk cfg { s with cache } :=
  ⟨hcache.ok, fun m hm => (h.manifest m hm).of_marks hcache.marks⟩

/-! Reads from memory. -/

namespace EntryOk

variable {e : CachedEntry} {file content : List UInt8} (h : EntryOk e file content)
include h

theorem rangePart {i : Nat} {chunk : List UInt8} (hc : e.chunks.lookup i = some chunk) {offset stop : Nat}
    (hstop : stop ≤ content.length) (hi : i * defaultChunkSize < stop) :
    e.rangePart offset stop i chunk = chunkPart content defaultChunkSize offset stop i := by
  have hchunk := (h.chunks i chunk hc).2
  unfold CachedEntry.rangePart
  rw [h.chunkSizeOf, h.size, expectedChunkLength_eq]
  simp only
  have hend : min (stop - i * defaultChunkSize) (min (content.length - i * defaultChunkSize) defaultChunkSize) =
      min (stop - i * defaultChunkSize) defaultChunkSize := by omega
  rw [hend]
  by_cases hle : offset < i * defaultChunkSize + defaultChunkSize ∧ offset < stop
  · rw [map_byteAt_range' content (i * defaultChunkSize) (by omega) fun q hq => hchunk.byteAt_eq (by omega)]
    congr 1 <;> omega
  · rw [chunkPart, slice_eq_nil (by omega),
      show min (stop - i * defaultChunkSize) defaultChunkSize - (offset - i * defaultChunkSize) = 0 by omega]
    rfl

theorem rangeParts {offset stop : Nat} (hstop : stop ≤ content.length) {indices : List Nat}
    (hi : ∀ i ∈ indices, i * defaultChunkSize < stop) {bytes : List UInt8}
    (hbytes : e.rangeParts offset stop indices = some bytes) :
    bytes = indices.flatMap fun i => chunkPart content defaultChunkSize offset stop i := by
  induction indices generalizing bytes with
  | nil =>
    cases hbytes
    rfl
  | cons i indices ih =>
    unfold CachedEntry.rangeParts at hbytes
    split at hbytes
    · cases hbytes
    · next chunk hc =>
      obtain ⟨rest, hrest, rfl⟩ := map_eq_some_iff.mp hbytes
      rw [flatMap_cons, ih (fun j hj => hi j (mem_cons_of_mem _ hj)) hrest, h.rangePart hc hstop (hi i mem_cons_self)]

theorem range {offset size : Nat} (hsize : 0 < size) {bytes : List UInt8} (hbytes : e.range offset size = some bytes) :
    bytes = slice content offset (offset + size) := by
  unfold CachedEntry.range at hbytes
  rw [h.size, h.chunkSizeOf] at hbytes
  split at hbytes
  · cases hbytes
    apply eq_slice
    · show 0 = _
      omega
    · intro q hq
      exact absurd hq (Nat.not_lt_zero q)
  · generalize hstop : (if size = 0 ∨ content.length < offset + size then content.length else offset + size) = stop
      at hbytes
    have hle : stop = min (offset + size) content.length := by
      subst hstop
      split <;> omega
    have hlt : offset < stop := by omega
    rw [h.rangeParts (by omega) (fun i hi => ((mem_chunkRange defaultChunkSize_pos hlt).mp hi).1) hbytes,
      flatMap_chunkRange defaultChunkSize_pos hlt content _ fun _ _ => rfl, hle]
    apply eq_slice
    · rw [length_slice]
      omega
    · intro q hq
      rw [length_slice] at hq
      rw [byteAt_slice, if_pos (by omega)]

end EntryOk

/-! Reads by chunks. -/

namespace FileOk

variable {cfg : FileConfig} {s : FileState} {env : ReadEnv} {m : Option Manifest}

theorem chunkAt_of_localChunk {i : Nat}
    (hlocal : cfg.localChunk m env s.cache i = none) : s.cache.chunkAt cfg.inode i = none := by
  cases hc : s.cache.chunkAt cfg.inode i with
  | none => rfl
  | some chunk =>
    unfold localChunk at hlocal
    rw [show (s.cache.entries.lookup cfg.inode).bind (·.chunks.lookup i) = some chunk from hc] at hlocal
    cases hlocal

theorem fetches (cs now : Nat) (hcs : cs = defaultChunkSize) (uncached : List Nat) (l : List Fetch)
    (p : NodeCache × List (Nat × Nat)) (hcache : CacheOk cfg.inode p.1 s.file s.content) :
    CacheOk.Undisturbed cfg.inode s.file s.content p.1 (l.foldl (cfg.fetchStep s.file cs now uncached) p).1 := by
  refine CacheOk.foldl Prod.fst l (fun p fetch hcache => ?_) p hcache
  subst hcs
  cases fetch with simp only [fetchStep]
  | ask i =>
    split <;> exact hcache.refl
  | put i =>
    cases p.2.lookup i with
    | none => exact hcache.refl
    | some readGen =>
      split_ifs with hput
      · exact hcache.putChunk readGen now hput.2.1
      · exact hcache.refl

section

variable (hcache : CacheOk cfg.inode s.cache s.file s.content)
  (hm : ∀ m', m = some m' → ManifestOk cfg.inode s.cache s.content m')
include hcache hm

theorem isChunk_localChunk {i : Nat} {data : List UInt8}
    (hlocal : cfg.localChunk m env s.cache i = some data) : IsChunk s.content i data := by
  unfold localChunk at hlocal
  cases hc : (s.cache.entries.lookup cfg.inode).bind (·.chunks.lookup i) with
  | some chunk =>
    rw [hc] at hlocal
    cases hlocal
    exact hcache.isChunk_of_chunkAt hc
  | none =>
    have hmark := hcache.markAt_of_absent hc
    rw [hc] at hlocal
    cases m with
    | none => cases hlocal
    | some m =>
      have hman := hm m rfl
      simp only at hlocal
      split at hlocal
      case isTrue hinline =>
        cases hlocal
        obtain ⟨hne, rfl⟩ := hinline
        exact hman.inline hmark hne
      case isFalse =>
        split at hlocal
        · exact hman.shas i data hmark hlocal
        · cases hlocal

theorem isChunk_chunkData (env : ReadEnv) (i : Nat) :
    IsChunk s.content i ((cfg.localChunk m env s.cache i).getD (fileChunk s.file i)) := by
  cases hlocal : cfg.localChunk m env s.cache i with
  | none =>
    exact hcache.isChunk_readFile (hcache.markAt_of_absent (chunkAt_of_localChunk hlocal))
  | some data =>
    exact isChunk_localChunk hcache hm hlocal

end

variable (h : FileOk cfg s)
include h

theorem getOrLoadManifest (henv : env.manifest.Describes s.file) :
    ∃ t m, cfg.getOrLoadManifest env s = (t, m) ∧ FileOk cfg t ∧ t.cache = s.cache ∧ t.content = s.content ∧
      ∀ m', m = some m' → ManifestOk cfg.inode s.cache s.content m' := by
  have hnew : FileOk cfg { s with manifest := some env.manifest } := by
    refine ⟨h.cache, fun m hm => ?_⟩
    cases hm
    exact h.cache.manifest henv
  have hloaded : ∀ m, some env.manifest = some m → ManifestOk cfg.inode s.cache s.content m := hnew.manifest
  unfold FileConfig.getOrLoadManifest
  split
  · exact ⟨_, _, rfl, h, rfl, rfl, nofun⟩
  cases hm : s.manifest with
  | none => exact ⟨_, _, rfl, hnew, rfl, rfl, hloaded⟩
  | some m =>
    cases env.expired with
    | true => exact ⟨_, _, rfl, hnew, rfl, rfl, hloaded⟩
    | false => exact ⟨_, _, rfl, h, rfl, rfl, fun m' hm' => h.manifest m' (hm.trans hm')⟩

theorem totalSize (hm : ∀ m', m = some m' → ManifestOk cfg.inode s.cache s.content m') (env : ReadEnv)
    (chunks : List Nat) (hne : chunks ≠ []) :
    (if (chunks.filter fun i => (cfg.localChunk m env s.cache i).isNone) = [] then cfg.knownSize m s.cache
      else max (cfg.knownSize m s.cache) s.file.length) = s.content.length := by
  have hle := h.cache.fileLength
  have hknown {p : Prop} [Decidable p] (heq : cfg.knownSize m s.cache = s.content.length) :
      (if p then cfg.knownSize m s.cache else max (cfg.knownSize m s.cache) s.file.length) = s.content.length := by
    split <;> omega
  cases hl : s.cache.entries.lookup cfg.inode with
  | some e =>
    apply hknown
    simp only [knownSize, getSize, hl, map_some]
    exact (h.cache.entry e hl).size
  | none =>
    cases m with
    | some m =>
      apply hknown
      simp only [knownSize, getSize, hl, map_none]
      apply (hm m rfl).totalSize
      intro i
      rw [markAt, hl]
      rfl
    | none =>
      -- nothing is known, but then every chunk comes from the controller
      have hlocal (i) : (cfg.localChunk none env s.cache i).isNone = true := by
        simp only [localChunk, hl, bind_none, isNone_none]
      rw [filter_eq_self.mpr fun i _ => hlocal i, if_neg hne, h.cache.absent hl]
      simp only [knownSize, getSize, hl, map_none]
      omega

/-- `Read` by chunks returns the content and keeps the file right. -/
theorem readChunks {offset size : Nat} (hsize : 0 < size) (henv : env.manifest.Describes s.file) :
    FileOk cfg (cfg.readChunks offset size env s).1 ∧
      (cfg.readChunks offset size env s).2 = slice s.content offset (offset + size) := by
  obtain ⟨t, m, hload, hs, hcache, hcontent, hman⟩ := h.getOrLoadManifest henv
  unfold FileConfig.readChunks
  simp only [hload]
  rw [← hcache, ← hcontent] at hman
  rw [← hcontent]
  have hcs : chunkSizeOf m = defaultChunkSize := by
    cases m with
    | none => rfl
    | some m =>
      rw [chunkSizeOf, (hman m rfl).chunkSize]
      exact ite_self _
  rw [hcs]
  have hlt : offset < offset + size := by omega
  have hmem := fun i => mem_chunkRange (i := i) defaultChunkSize_pos hlt
  have htotal := hs.totalSize hman env (chunkRange defaultChunkSize offset (offset + size)) (by
    have hsplit := div_mul_add_mod defaultChunkSize_pos offset
    exact ne_nil_of_mem ((hmem (offset / defaultChunkSize)).mpr (by omega)))
  rw [htotal]
  refine ⟨?_, ?_⟩
  · have htouched := CacheOk.foldl id (chunkRange defaultChunkSize offset (offset + size))
      (fun c i hc => hc.getChunk i env.now) t.cache hs.cache
    have hfetched := fetches (s := t) defaultChunkSize env.now rfl
      ((chunkRange defaultChunkSize offset (offset + size)).filter fun i => (cfg.localChunk m env t.cache i).isNone)
      env.fetches (_, []) htouched.ok
    exact hs.with_cache (htouched.trans hfetched)
  · apply flatMap_chunkRange defaultChunkSize_pos hlt
    intro i hi
    exact (isChunk_chunkData hs.cache hman env i).readPart ((hmem i).mp hi).1

theorem read {offset size : Nat} (hsize : 0 < size) (henv : env.manifest.Describes s.file) :
    FileOk cfg (cfg.read offset size env s).1 ∧
      (cfg.read offset size env s).2 = slice s.content offset (offset + size) := by
  have htouched : FileOk cfg { s with cache := s.cache.touch cfg.inode env.now } :=
    h.with_cache (h.cache.touch env.now)
  unfold FileConfig.read getRange
  cases hhit : (s.cache.entries.lookup cfg.inode).bind (·.range offset size) with
  | none => exact htouched.readChunks hsize henv
  | some bytes =>
    obtain ⟨e, hl, hrange⟩ := bind_eq_some_iff.mp hhit
    exact ⟨htouched, (h.cache.entry e hl).range hsize hrange⟩

end FileOk

/-! Write-back. -/

namespace EntryOk

variable {e : CachedEntry} {file content : List UInt8}

section

variable (h : EntryOk e file content)
include h

theorem synced {e' : CachedEntry} (hsize : e'.size = e.size)
    (hchunkSize : e'.chunkSize = e.chunkSize) (hsizeGen : e'.sizeGen = e.sizeGen) (hchunks : e'.chunks = e.chunks)
    (hmarks : ∀ i gen, e'.dirtyChunks.lookup i = some gen → e.dirtyChunks.lookup i = some gen) :
    EntryOk e' content content :=
  of_same (hchunkSize.trans h.chunkSize) (hsizeGen.trans h.sizeGen) (hsize.trans h.size) (hchunks ▸ h.chunks)
    fun i gen hm => hchunks ▸ h.marked i gen (hmarks i gen hm)

theorem data_of_mark {i gen : Nat} (hm : e.dirtyChunks.lookup i = some gen) :
    ∃ chunk, e.chunks.lookup i = some chunk ∧ e.getDirtyChunks.data i = chunk ∧ i ∈ e.getDirtyChunks.indices := by
  obtain ⟨chunk, hc⟩ := isSome_iff_exists.mp (h.marked i gen hm)
  obtain ⟨hne, hchunk⟩ := h.chunks i chunk hc
  have hpos := length_pos_of_ne_nil hne
  have hle := hchunk.length_le
  have hlookup : e.getDirtyChunks.chunks.lookup i = some chunk := by
    simp only [CachedEntry.getDirtyChunks, lookup_select, hm, isSome_some, if_true]
    exact hc
  refine ⟨chunk, hc, ?_, ?_⟩
  · rw [data, hlookup, getD_some, take_of_length_le]
    show chunk.length ≤ e.size - i * e.chunkSizeOf
    rw [h.size, h.chunkSizeOf]
    omega
  · rw [mem_indices, hlookup]
    show _ ∧ i * e.chunkSizeOf < e.size
    rw [h.size, h.chunkSizeOf]
    exact ⟨rfl, by omega⟩

omit h in
theorem mark_of_copied {i : Nat} (hc : (e.getDirtyChunks.chunks.lookup i).isSome) :
    ∃ gen, e.dirtyChunks.lookup i = some gen := by
  simp only [CachedEntry.getDirtyChunks, lookup_select] at hc
  split at hc
  case isTrue hm => exact isSome_iff_exists.mp hm
  case isFalse => cases hc

theorem foldl_sendRun : e.getDirtyChunks.runs.foldl e.getDirtyChunks.sendRun file = content := by
  rw [DirtyChunks.foldl_sendRun]
  have hsize : e.getDirtyChunks.chunkSize = defaultChunkSize := h.chunkSizeOf
  have hdata (i) : e.getDirtyChunks.data i = [] ∨
      IsChunk content i (e.getDirtyChunks.data i) ∧ e.getDirtyChunks.data i ≠ [] := by
    cases hc : e.getDirtyChunks.chunks.lookup i with
    | none =>
      left
      rw [data, hc]
      exact take_nil
    | some chunk =>
      obtain ⟨gen, hm⟩ := mark_of_copied (i := i) (by rw [hc]; rfl)
      obtain ⟨chunk', hchunk, hd, -⟩ := h.data_of_mark hm
      obtain ⟨hne, his⟩ := h.chunks i chunk' hchunk
      exact .inr (hd ▸ ⟨his, hne⟩)
  have hlen (i) : (e.getDirtyChunks.data i).length ≤ defaultChunkSize := by
    obtain hnil | hchunk := hdata i
    · rw [hnil]
      exact Nat.zero_le _
    · exact hchunk.1.1
  apply Bytes.ext
  · apply le_antisymm
    · rw [length_foldl_sendChunk]
      refine ⟨h.fileLength, fun i hi => ?_⟩
      rw [hsize]
      obtain hnil | hchunk := hdata i
      · have hlt := (mem_indices.mp hi).2
        rw [hsize] at hlt
        have hle : i * defaultChunkSize < content.length := h.size ▸ hlt
        rw [hnil]
        exact le_of_lt hle
      · exact (hchunk.1.2.1).resolve_left hchunk.2
    · by_contra hlt
      have hle := (length_foldl_sendChunk (d := e.getDirtyChunks) e.getDirtyChunks.indices file _).mp le_rfl
      -- the dirty chunk that reaches the end of the content is among those sent
      obtain ⟨i, gen, chunk, hm, hc, hend⟩ := h.grown (by omega)
      obtain ⟨chunk', hc', hd, hi⟩ := h.data_of_mark hm
      have hreach := hle.2 i hi
      rw [hc, some.injEq] at hc'
      rw [hd, ← hc', hsize] at hreach
      omega
  · intro p _
    rw [byteAt_foldl_sendChunk defaultChunkSize_pos hsize hlen indices_nodup]
    have hsplit := div_mul_add_mod defaultChunkSize_pos p
    split
    case isTrue hsent =>
      obtain hnil | hchunk := hdata (p / defaultChunkSize)
      · rw [hnil] at hsent
        exact absurd hsent.2 (Nat.not_lt_zero _)
      · rw [hchunk.1.byteAt_eq hsplit.2, hsplit.1]
    case isFalse hsent =>
      obtain heq | ⟨gen, chunk, hm, hc, hq⟩ := h.bytes p
      · exact heq
      · obtain ⟨chunk', hc', hd, hi⟩ := h.data_of_mark hm
        rw [hc, some.injEq] at hc'
        exact absurd ⟨hi, hd ▸ hc' ▸ hq⟩ hsent

theorem beyond : e.getDirtyChunks.beyond = [] := by
  apply filter_eq_nil_iff.mpr
  intro i hi
  obtain ⟨gen, hm⟩ := mark_of_copied (mem_keys.mp hi)
  obtain ⟨chunk, -, -, hmem⟩ := h.data_of_mark hm
  have hlt := (mem_indices.mp hmem).2
  rw [decide_eq_true_eq]
  omega

end

end EntryOk

namespace FileOk

variable {cfg : FileConfig} {s : FileState} (h : FileOk cfg s)
include h

theorem sent : FileOk cfg { s with file := s.content } := by
  refine ⟨⟨fun _ => rfl, fun e hl => ?_⟩, h.manifest⟩
  exact (h.cache.entry e hl).synced rfl rfl rfl rfl fun _ _ hm => hm

/-- `pushDirtyChunksToStaging` brings the controller to the content. -/
theorem push : ∃ runs gens, cfg.pushDirtyChunksToStaging s = ({ s with file := s.content }, runs, gens) ∧
    ∀ i gen, s.cache.markAt cfg.inode i = some gen → i ∈ runs.flatten ∧ gens.lookup i = some gen := by
  have hsame (file) (heq : s.file = file) : s = { s with file } := by
    subst heq
    rfl
  unfold pushDirtyChunksToStaging
  cases hl : s.cache.entries.lookup cfg.inode with
  | none =>
    refine ⟨[], ∅, ?_, fun i gen hm => ?_⟩
    · simp only [getDirtySize, getDirtyChunks, hl]
      rw [← hsame _ (h.cache.absent hl)]
    · rw [markAt, hl] at hm
      cases hm
  | some e =>
    have he := h.cache.entry e hl
    simp only [getDirtySize, getDirtyChunks, hl, he.sizeGen, if_true]
    by_cases hclean : e.dirtyChunks.entries.length = 0
    · have hmarks : ∀ i, e.dirtyChunks.lookup i = none := length_eq_zero.mp hclean
      refine ⟨[], ∅, ?_, fun i gen hm => ?_⟩
      · simp only [hclean, if_true]
        rw [← hsame _ (he.file_eq hmarks)]
      · rw [markAt_of_lookup hl, hmarks] at hm
        cases hm
    · refine ⟨e.getDirtyChunks.runs, e.getDirtyChunks.gens, ?_, fun i gen hm => ?_⟩
      · simp only [hclean, if_false, he.beyond, foldl_nil, he.foldl_sendRun]
      · rw [markAt_of_lookup hl] at hm
        obtain ⟨chunk, hc, -, hi⟩ := he.data_of_mark hm
        refine ⟨flatten_runs ▸ hi, ?_⟩
        simp only [CachedEntry.getDirtyChunks, lookup_select, hc, isSome_some, if_true]
        exact hm

theorem completeSync {runs : List (List Nat)} {gens : AList fun _ : Nat => Nat}
    (hsent : ∀ i gen, s.cache.markAt cfg.inode i = some gen → i ∈ runs.flatten ∧ gens.lookup i = some gen) :
    ∃ t, cfg.dropClean (cfg.completeSync runs gens { s with file := s.content }) = t ∧ FileOk cfg t ∧
      t.file = s.content ∧ t.content = s.content ∧ ∀ i, t.cache.markAt cfg.inode i = none := by
  have hlookup : ∀ e, (cfg.completeSync runs gens s).cache.entries.lookup cfg.inode = some e →
      EntryOk e s.content s.content ∧ ∀ i, e.dirtyChunks.lookup i = none := by
    intro e hl
    simp only [FileConfig.completeSync, lookup_markChunksClean, if_true] at hl
    obtain ⟨old, hold, rfl⟩ := map_eq_some_iff.mp hl
    obtain ⟨hsize, hchunkSize, hsizeGen, hchunks, hmarks⟩ := old.markChunksClean_spec gens runs.flatten
    have hnone (i) : (old.markChunksClean gens runs.flatten).dirtyChunks.lookup i = none := by
      rw [hmarks]
      cases hm : old.dirtyChunks.lookup i with
      | none => exact ite_self _
      | some gen =>
        obtain ⟨hi, hgen⟩ := hsent i gen ((markAt_of_lookup hold).trans hm)
        rw [if_pos]
        exact ⟨hi, gen, by rw [hgen]; exact le_refl gen, rfl⟩
    refine ⟨(h.cache.entry old hold).synced hsize hchunkSize hsizeGen hchunks fun i gen hm => ?_, hnone⟩
    rw [hnone i] at hm
    cases hm
  have hcache : CacheOk cfg.inode (cfg.completeSync runs gens s).cache s.content s.content :=
    ⟨fun _ => rfl, fun e hl => (hlookup e hl).1⟩
  have hclean : ∀ i, (cfg.completeSync runs gens s).cache.markAt cfg.inode i = none := by
    intro i
    unfold markAt
    cases hl : (cfg.completeSync runs gens s).cache.entries.lookup cfg.inode with
    | none => rfl
    | some e => exact (hlookup e hl).2 i
  unfold dropClean
  split
  case isTrue =>
    have hkept := (sheds_invalidateAllClean (cfg.completeSync runs gens s).cache).lookup cfg.inode
    refine ⟨_, rfl, ⟨hcache.of_kept hkept, nofun⟩, rfl, rfl, fun i => ?_⟩
    rw [← hclean i]
    exact markAt_of_kept hkept i
  case isFalse => exact ⟨_, rfl, ⟨hcache, nofun⟩, rfl, rfl, hclean⟩

theorem syncAndFsync : FileOk cfg (cfg.syncAndFsync s) ∧ (cfg.syncAndFsync s).file = s.content ∧
    (cfg.syncAndFsync s).content = s.content ∧ ∀ i, (cfg.syncAndFsync s).cache.markAt cfg.inode i = none := by
  obtain ⟨runs, gens, hpush, hsent⟩ := h.push
  unfold FileConfig.syncAndFsync
  rw [hpush]
  obtain ⟨t, rfl, hok⟩ := h.completeSync hsent
  exact hok

theorem flush : FileOk cfg (cfg.flush s) := by
  obtain ⟨runs, gens, hpush, -⟩ := h.push
  rw [FileConfig.flush, hpush]
  exact h.sent

theorem syncVolume : FileOk cfg (cfg.syncVolume s) ∧ (cfg.syncVolume s).content = s.content := by
  obtain ⟨runs, gens, hpush, hsent⟩ := h.push
  unfold FileConfig.syncVolume
  split
  · exact ⟨h, rfl⟩
  rw [hpush]
  simp only
  split
  · exact ⟨h.sent, rfl⟩
  · obtain ⟨t, rfl, hok, -, hcontent, -⟩ := h.completeSync hsent
    exact ⟨hok, hcontent⟩

theorem visible : OwnWritesVisible cfg s :=
  ⟨fun _ _ _ hsize henv => (h.read hsize henv).2, h.syncAndFsync.2.1⟩

end FileOk

end InClusterStorage.Node
