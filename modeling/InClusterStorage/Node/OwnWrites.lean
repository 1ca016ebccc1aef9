import InClusterStorage.Node.FileOk

/- A node reads its own writes.

   Reads, syncs, truncations and holes keep the copies of a file in order (`FileOk`). A
   write keeps them where it finds what it does not write itself: the size of the file, if
   it ends before the end of the file, and the other bytes of the chunks it covers in part
   (`FindsOld`). The read-in before the write is there for this. But it is not made for a
   write of whole chunks; and its chunks may be evicted by the read-in of the next chunk,
   or, with a disk cache, dropped by the sync that makes room for the write. A write that
   does not find them loses them at once, so that the condition is exact
   (`own_writes_visible_iff`). -/
namespace InClusterStorage.Node

open Bytes Runs NodeCache List Option FileConfig Table
open Controller (chunkRange expectedChunkLength mem_chunkRange div_mul_add_mod div_eq expectedChunkLength_eq)

variable {content data : List UInt8} {e : CachedEntry} {offset : Nat}

/-! Truncations. -/

theorem lt_numChunks {cs : Nat} (hcs : 0 < cs) (size i : Nat) : i < (size + cs - 1) / cs ↔ i * cs < size := by
  rw [Nat.lt_iff_add_one_le, Nat.le_div_iff_mul_le hcs, Nat.succ_mul]
  omega

theorem IsChunk.resize {chunk : List UInt8} {i : Nat} (h : IsChunk content i chunk) (hne : chunk ≠ []) (size : Nat)
    (hi : i * defaultChunkSize < size) :
    chunk.take (size - i * defaultChunkSize) ≠ [] ∧
      IsChunk (Bytes.resize size content) i (chunk.take (size - i * defaultChunkSize)) := by
  have hpos := length_pos_of_ne_nil hne
  have hle := h.length_le
  have hlen : (chunk.take (size - i * defaultChunkSize)).length = min (size - i * defaultChunkSize) chunk.length :=
    length_take
  refine ⟨fun hnil => ?_, ?_, .inr ?_, fun q hq => ?_⟩
  · rw [hnil, length_nil] at hlen
    omega
  · omega
  · rw [length_resize]
    omega
  · rw [byteAt_take, byteAt_resize, ← h.byteAt_eq hq]
    by_cases hin : q < size - i * defaultChunkSize
    · rw [if_pos hin, if_pos (by omega)]
    · rw [if_neg hin, if_neg (by omega)]

theorem EntryOk.truncate (h : EntryOk e content content)
    (hclean : ∀ i, e.dirtyChunks.lookup i = none) (size gen now : Nat) :
    EntryOk ((e.truncate size gen now).markSizeClean gen) (resize size content) (resize size content) := by
  have hfields : (e.truncate size gen now).markSizeClean gen = { e.truncate size gen now with sizeGen := 0 } := by
    have hgen : (e.truncate size gen now).sizeGen = gen := rfl
    rw [CachedEntry.markSizeClean, hgen, if_pos (le_refl gen)]
  rw [hfields]
  refine .of_same h.chunkSize rfl length_resize.symm (fun i chunk hc => ?_) fun i g hm => ?_
  · change (e.truncate size gen now).chunks.lookup i = some chunk at hc
    simp only [CachedEntry.truncate, h.chunkSizeOf, lookup_filterMap] at hc
    obtain ⟨old, hold, hkeep⟩ := bind_eq_some_iff.mp hc
    obtain ⟨hne, hold'⟩ := h.chunks i old hold
    have hlt := lt_numChunks defaultChunkSize_pos size i
    have hlast := lt_numChunks defaultChunkSize_pos size (i + 1)
    rw [Nat.succ_mul] at hlast
    split at hkeep
    · cases hkeep
    have hcut := hold'.resize hne size (by omega)
    split at hkeep
    · exact some.inj hkeep ▸ hcut
    · -- a chunk before the last one is not cut
      rw [some.injEq] at hkeep
      rw [take_of_length_le (by have := hold'.1; omega)] at hcut
      exact hkeep ▸ hcut
  · change (e.truncate size gen now).dirtyChunks.lookup i = some g at hm
    simp only [CachedEntry.truncate, lookup_select, hclean, ite_self] at hm
    cases hm

/-! Holes. -/

theorem EntryOk.punchHole (h : EntryOk e content content)
    (hclean : ∀ i, e.dirtyChunks.lookup i = none) (offset length gen now : Nat) :
    EntryOk ((e.punchHole offset length true gen now).markSizeClean gen) (zeroRange content offset (offset + length))
      (zeroRange content offset (offset + length)) := by
  have hgrows : ¬ e.PunchGrows offset length true := fun hg => Bool.noConfusion hg.1
  have hfields : (e.punchHole offset length true gen now).markSizeClean gen =
      { e.punchHole offset length true gen now with sizeGen := 0 } := by
    have hgen : (e.punchHole offset length true gen now).sizeGen = 0 := by
      show (if e.PunchGrows offset length true then gen else e.sizeGen) = 0
      rw [if_neg hgrows, h.sizeGen]
    rw [CachedEntry.markSizeClean, hgen, if_pos (Nat.zero_le gen)]
  rw [hfields]
  refine .of_same h.chunkSize rfl ?_ (fun i chunk hc => ?_) fun i g hm => ?_
  · rw [length_zeroRange, ← h.size]
    show (if e.PunchGrows offset length true then offset + length else e.size) = e.size
    rw [if_neg hgrows]
  · change (e.punchHole offset length true gen now).chunks.lookup i = some chunk at hc
    have hend : e.punchEnd offset length true = min (offset + length) content.length := by
      simp only [CachedEntry.punchEnd, h.size, true_and]
      split <;> omega
    -- a chunk that stays does not meet the hole
    have hkept : e.chunks.lookup i = some chunk ∧ (offset < min (offset + length) content.length →
        ¬ (offset < i * defaultChunkSize + defaultChunkSize ∧
          i * defaultChunkSize < min (offset + length) content.length)) := by
      simp only [CachedEntry.punchHole, hend] at hc
      by_cases hempty : offset < min (offset + length) content.length
      · rw [if_pos hempty, lookup_filterMap] at hc
        obtain ⟨old, hold, hkeep⟩ := bind_eq_some_iff.mp hc
        unfold CachedEntry.punchChunk at hkeep
        rw [h.chunkSizeOf, hclean] at hkeep
        obtain ⟨-, hkeep⟩ := ite_none_left_eq_some.mp hkeep
        split at hkeep <;> cases hkeep
        rename_i hmeets
        exact ⟨hold, fun _ => hmeets⟩
      · rw [if_neg hempty] at hc
        exact ⟨hc, fun hlt => absurd hlt hempty⟩
    obtain ⟨hne, hold⟩ := h.chunks i chunk hkept.1
    refine ⟨hne, hold.1, hold.2.1.imp_right fun hfits => by rw [length_zeroRange]; exact hfits, fun q hq => ?_⟩
    rw [byteAt_zeroRange, hold.byteAt_eq hq]
    split
    case isFalse => rfl
    case isTrue hin =>
      by_cases hout : content.length ≤ i * defaultChunkSize + q
      · exact byteAt_of_length_le hout
      · exact absurd (hkept.2 (by omega)) (not_not.mpr (by omega))
  · change (e.punchHole offset length true gen now).dirtyChunks.lookup i = some g at hm
    unfold CachedEntry.punchHole at hm
    dsimp only at hm
    split at hm
    · rw [lookup_select, hclean, ite_self] at hm
      cases hm
    · rw [hclean] at hm
      cases hm

namespace FileOk

variable {cfg : FileConfig} {s : FileState} (h : FileOk cfg s)
include h

theorem setSize (size now : Nat) : FileOk cfg (cfg.setSize size now s) := by
  obtain ⟨hok, hfile, hcontent, hclean⟩ := h.syncAndFsync
  unfold FileConfig.setSize
  generalize cfg.syncAndFsync s = t at hok hfile hcontent hclean
  rw [← hcontent] at hfile
  have hgen : (t.cache.truncate cfg.inode size now).2 = t.cache.curGen + 1 := by
    unfold truncate
    dsimp only
    split <;> rfl
  refine ⟨⟨fun hl => ?_, fun e hl => ?_⟩, nofun⟩
  · show resize size t.file = resize size t.content
    rw [hfile]
  · show EntryOk e (resize size t.file) (resize size t.content)
    simp only [markSizeClean, lookup_modifyEntry, lookup_truncate, if_true, hgen, map_some, some.injEq] at hl
    rw [hfile]
    cases hold : t.cache.entries.lookup cfg.inode with rw [hold] at hl
    | none =>
      subst hl
      have hnew : CachedEntry.markSizeClean (t.cache.curGen + 1)
          { size, lastRead := now, generation := t.cache.curGen + 1, sizeGen := t.cache.curGen + 1 } =
          { size, lastRead := now, generation := t.cache.curGen + 1 } := by
        rw [CachedEntry.markSizeClean, if_pos le_rfl]
      rw [hnew]
      exact .empty length_resize.symm _ _
    | some old =>
      subst hl
      have hentry := hok.cache.entry old hold
      rw [hfile] at hentry
      exact hentry.truncate (fun i => (markAt_of_lookup hold).symm.trans (hclean i)) size _ now

theorem punchHole (offset length now : Nat) : FileOk cfg (cfg.punchHole offset length now s) := by
  obtain ⟨hok, hfile, hcontent, hclean⟩ := h.syncAndFsync
  unfold FileConfig.punchHole
  split
  · exact h
  generalize cfg.syncAndFsync s = t at hok hfile hcontent hclean
  rw [← hcontent] at hfile
  refine ⟨⟨fun hl => ?_, fun e hl => ?_⟩, nofun⟩
  · show zeroRange t.file offset (offset + length) = zeroRange t.content offset (offset + length)
    rw [hfile]
  · show EntryOk e (zeroRange t.file offset (offset + length)) (zeroRange t.content offset (offset + length))
    simp only [markSizeClean, lookup_modifyEntry, lookup_punchHole, if_true, Option.map_map] at hl
    obtain ⟨old, hold, rfl⟩ := map_eq_some_iff.mp hl
    have hentry := hok.cache.entry old hold
    rw [hfile] at hentry ⊢
    exact hentry.punchHole (fun i => (markAt_of_lookup hold).symm.trans (hclean i)) offset length _ now

end FileOk

/-! Writes. -/

theorem IsChunk.splice {chunk : List UInt8} {i : Nat} (h : IsChunk content i chunk)
    (hi : ¬ (i * defaultChunkSize < offset + data.length ∧ offset < i * defaultChunkSize + defaultChunkSize)) :
    IsChunk (Bytes.splice content offset data) i chunk := by
  refine ⟨h.1, h.2.1.imp_right fun hle => ?_, fun q hq => ?_⟩
  · rw [length_splice]
    omega
  · rw [h.byteAt_eq hq, byteAt_splice, if_neg (by omega)]

/-- A chunk that is as long as it can be reaches the end of the file, if that lies in it. -/
theorem le_add_min_sub {n start cs : Nat} (h : n ≤ start + cs) : n ≤ start + min (n - start) cs := by
  omega

theorem EntryOk.write {file : List UInt8} (h : EntryOk e file content) (hdata : 0 < data.length) (gen now : Nat)
    (hold : ∀ p, p / defaultChunkSize ∈ touched offset data →
      ¬ (offset ≤ p ∧ p < offset + data.length) → e.chunks.lookup (p / defaultChunkSize) = none → byteAt content p = 0) :
    EntryOk (e.write offset data gen now) file (splice content offset data) := by
  have hlt : offset < offset + data.length := by omega
  have hmem := fun i => mem_chunkRange (i := i) defaultChunkSize_pos hlt
  have hchunks := fun i => e.lookup_write_chunks offset data gen now i
  have hmarks := fun i => e.lookup_write_marks offset data gen now i
  rw [h.chunkSizeOf, h.size] at hchunks
  rw [h.chunkSizeOf] at hmarks
  have hsize : (splice content offset data).length = max (offset + data.length) content.length := by
    rw [length_splice]
    omega
  -- what a touched chunk becomes
  have htouched (i) (hi : i ∈ touched offset data) :
      ∃ chunk, (e.write offset data gen now).chunks.lookup i = some chunk ∧
        chunk.length = min (max (offset + data.length) content.length - i * defaultChunkSize) defaultChunkSize ∧
        IsChunk (splice content offset data) i chunk := by
    have hlast : ((e.chunks.lookup i).getD []).length ≤
        min (max (offset + data.length) content.length - i * defaultChunkSize) defaultChunkSize := by
      cases hc : e.chunks.lookup i with
      | none => exact Nat.zero_le _
      | some chunk =>
        have hle := (h.chunks i chunk hc).2.length_le
        rw [getD_some]
        omega
    obtain ⟨hlen, hbytes⟩ := CachedEntry.writtenChunk_spec ((e.chunks.lookup i).getD []) ((hmem i).mp hi).2
      (le_max_left (offset + data.length) content.length)
    rw [max_eq_right hlast] at hlen
    refine ⟨_, by rw [hchunks, if_pos hi], hlen, ?_, .inr ?_, fun q hq => ?_⟩
    · rw [hlen]
      omega
    · have hpos := (hmem i).mp hi
      omega
    · rw [hbytes q hq, byteAt_splice]
      by_cases hin : offset ≤ i * defaultChunkSize + q ∧ i * defaultChunkSize + q < offset + data.length
      · rw [if_pos hin, if_pos hin]
      · rw [if_neg hin, if_neg hin]
        cases hc : e.chunks.lookup i with
        | some chunk => exact (h.chunks i chunk hc).2.byteAt_eq hq
        | none =>
          have hdiv : (i * defaultChunkSize + q) / defaultChunkSize = i := (div_eq defaultChunkSize_pos).mpr (by omega)
          exact (hold _ (by rw [hdiv]; exact hi) hin (by rw [hdiv]; exact hc)).symm
  refine { chunkSize := h.chunkSizeOf, sizeGen := h.sizeGen, size := ?_, chunks := ?_, marked := ?_, bytes := ?_,
           fileLength := ?_, grown := ?_ }
  · rw [hsize, ← h.size]
    rfl
  · intro i chunk hc
    by_cases hi : i ∈ touched offset data
    · obtain ⟨chunk', hc', hlen, hok⟩ := htouched i hi
      rw [hc', some.injEq] at hc
      subst hc
      refine ⟨fun hnil => ?_, hok⟩
      have hpos := (hmem i).mp hi
      have := defaultChunkSize_pos
      rw [hnil, length_nil] at hlen
      omega
    · rw [hchunks, if_neg hi] at hc
      obtain ⟨hne, hok⟩ := h.chunks i chunk hc
      exact ⟨hne, hok.splice (mt (hmem i).mpr hi)⟩
  · intro i g hm
    rw [hmarks] at hm
    rw [hchunks]
    split
    · rfl
    · next hi =>
      rw [if_neg hi] at hm
      exact h.marked i g hm
  · intro p
    obtain ⟨hp, hmod⟩ := div_mul_add_mod defaultChunkSize_pos p
    by_cases hi : p / defaultChunkSize ∈ touched offset data
    · obtain ⟨chunk, hc, hlen, -⟩ := htouched _ hi
      by_cases hend : p < max (offset + data.length) content.length
      · exact .inr ⟨gen, chunk, by rw [hmarks, if_pos hi], hc, by rw [hlen]; omega⟩
      -- behind the end there is nothing on either side
      have hle := h.fileLength
      refine .inl ?_
      rw [byteAt_of_length_le (by omega), byteAt_of_length_le (by rw [hsize]; omega)]
    · have hout := mt (hmem _).mpr hi
      rw [byteAt_splice, if_neg (by omega), hmarks, if_neg hi, hchunks, if_neg hi]
      exact h.bytes p
  · have hle := h.fileLength
    omega
  · rw [hsize]
    intro hgrown
    by_cases hend : content.length ≤ offset + data.length
    · -- the write ends the file
      obtain ⟨hp, hmod⟩ := div_mul_add_mod defaultChunkSize_pos (offset + data.length - 1)
      have hlast : (offset + data.length - 1) / defaultChunkSize ∈ touched offset data := (hmem _).mpr (by omega)
      have hreach : offset + data.length ≤
          (offset + data.length - 1) / defaultChunkSize * defaultChunkSize + defaultChunkSize := by omega
      obtain ⟨chunk, hc, hlen, -⟩ := htouched _ hlast
      rw [max_eq_left hend] at hlen ⊢
      exact ⟨_, gen, chunk, by rw [hmarks, if_pos hlast], hc, by rw [hlen]; exact le_add_min_sub hreach⟩
    · obtain ⟨i, g, chunk, hm, hc, hle⟩ := h.grown (by omega)
      by_cases hi : i ∈ touched offset data
      · have hchunk := (h.chunks i chunk hc).2.1
        have hreach : content.length ≤ i * defaultChunkSize + defaultChunkSize := by omega
        obtain ⟨chunk', hc', hlen, -⟩ := htouched i hi
        rw [max_eq_right (Nat.le_of_not_le hend)] at hlen ⊢
        exact ⟨i, gen, chunk', by rw [hmarks, if_pos hi], hc', by rw [hlen]; exact le_add_min_sub hreach⟩
      · exact ⟨i, g, chunk, by rw [hmarks, if_neg hi]; exact hm, by rw [hchunks, if_neg hi]; exact hc, by omega⟩

/-- Where the write ends the file, the size of the entry before does not matter. -/
theorem CachedEntry.write_of_size_le (e : CachedEntry) {size : Nat}
    (h : size ≤ offset + data.length) (gen now : Nat) :
    ({ e with size := 0 } : CachedEntry).write offset data gen now =
      ({ e with size } : CachedEntry).write offset data gen now := by
  unfold CachedEntry.write
  rw [max_eq_left h, max_eq_left (Nat.zero_le _)]
  rfl

/-! What a write finds before `WriteAt`. -/

/-- A write from `offset` to `stop` finds the size of the file, if it ends before it, and
the other bytes of the chunks it touches; bytes that are zero need not be found. -/
structure FindsOld (cfg : FileConfig) (offset stop : Nat) (s : FileState) : Prop where
  size : s.cache.entries.lookup cfg.inode = none → s.content.length ≤ stop
  bytes : ∀ p, p / defaultChunkSize ∈ chunkRange defaultChunkSize offset stop → ¬ (offset ≤ p ∧ p < stop) →
    s.cache.chunkAt cfg.inode (p / defaultChunkSize) = none → byteAt s.content p = 0

namespace FileOk

variable {cfg : FileConfig} {s : FileState} (h : FileOk cfg s)
include h

theorem readIn (offset stop now : Nat) (indices : List Nat) :
    FileOk cfg { s with cache := indices.foldl (cfg.readIn s.file offset stop now) s.cache } := by
  refine h.with_cache (CacheOk.foldl id indices (fun c i hc => ?_) s.cache h.cache)
  have hgot := CacheOk.getChunk hc i now
  simp only [id] at hc hgot ⊢
  unfold FileConfig.readIn
  dsimp only
  split
  · split
    · exact hc.refl
    generalize c.getChunk cfg.inode i now = got at hgot
    obtain ⟨c', chunk⟩ := got
    cases chunk with
    | some chunk => exact hgot
    | none =>
      split_ifs with hnil
      · exact hgot
      · exact hgot.trans (hgot.ok.putChunk _ _ hnil)
  · exact hc.refl

theorem prepareWrite (offset : Nat) (data : List UInt8) (now : Nat) :
    FileOk cfg (cfg.prepareWrite offset data now s) ∧ (cfg.prepareWrite offset data now s).content = s.content := by
  have hread := h.readIn offset (offset + data.length) now (touched offset data)
  unfold FileConfig.prepareWrite
  dsimp only
  split
  · exact hread.syncVolume
  · exact ⟨hread, rfl⟩

end FileOk

theorem exists_readEnv (file : List UInt8) : ∃ env : ReadEnv, env.manifest.Describes file :=
  ⟨{ now := 0, expired := false, manifest := { chunkSize := defaultChunkSize, totalSize := file.length }, blobs := [],
     fetches := [] },
   { chunkSize := rfl, totalSize := rfl, shas := fun _ hi => absurd hi (Nat.not_lt_zero _),
     inline hne := absurd rfl hne }⟩

theorem read_of_range {cfg : FileConfig} {s : FileState} {size : Nat} {bytes : List UInt8}
    (env : ReadEnv) (hl : s.cache.entries.lookup cfg.inode = some e) (hrange : e.range offset size = some bytes) :
    (cfg.read offset size env s).2 = bytes := by
  have hget : s.cache.getRange cfg.inode offset size env.now = (s.cache.touch cfg.inode env.now, some bytes) := by
    rw [getRange, hl, bind_some, hrange]
  rw [FileConfig.read, hget]

theorem range_one_eq_zero {p : Nat} {chunk : List UInt8} (hcs : e.chunkSizeOf = defaultChunkSize)
    (hc : e.chunks.lookup (p / defaultChunkSize) = some chunk) (hzero : byteAt chunk (p % defaultChunkSize) = 0) :
    ∃ bytes, e.range p 1 = some bytes ∧ ∀ b ∈ bytes, b = 0 := by
  unfold CachedEntry.range
  split
  · exact ⟨[], rfl, nofun⟩
  next hsize =>
  have hstop : (if 1 = 0 ∨ e.size < p + 1 then e.size else p + 1) = p + 1 := if_neg (by omega)
  have hone : chunkRange defaultChunkSize p (p + 1) = [p / defaultChunkSize] := by
    rw [chunkRange, Nat.add_sub_cancel, Nat.add_sub_cancel_left]
    rfl
  dsimp only
  rw [hstop, hcs, hone]
  refine ⟨e.rangePart p (p + 1) (p / defaultChunkSize) chunk, ?_, fun b hb => ?_⟩
  · simp only [CachedEntry.rangeParts, hc, map_some, append_nil]
  · obtain ⟨q, hq, rfl⟩ := mem_map.mp hb
    obtain ⟨hp, hmod⟩ := div_mul_add_mod defaultChunkSize_pos p
    rw [hcs, mem_range'_1] at hq
    have hpos : ∀ {start len : Nat}, start + p % defaultChunkSize = p →
        p - start ≤ q ∧ q < p - start + (min (p + 1 - start) len - (p - start)) → q = p % defaultChunkSize := by
      omega
    rwa [hpos hp hq]

namespace FileOk

variable {cfg : FileConfig} {s : FileState} (h : FileOk cfg s)
include h

theorem chunkSizeOf_writeBase (now : Nat) : (s.cache.writeBase cfg.inode now).chunkSizeOf = defaultChunkSize := by
  unfold writeBase
  cases hl : s.cache.entries.lookup cfg.inode with
  | none => exact if_neg defaultChunkSize_ne_zero
  | some e => exact (h.cache.entry e hl).chunkSizeOf

theorem lookup_written (offset now : Nat) {data : List UInt8} (hdata : 0 < data.length) :
    (s.cache.writeAt cfg.inode offset data now).entries.lookup cfg.inode =
      some (s.cache.written cfg.inode offset data now) :=
  lookup_writeAt_self _ _ hdata _ _ (h.chunkSizeOf_writeBase now)

theorem writeAt {offset now : Nat} {data : List UInt8} (hdata : 0 < data.length)
    (hold : FindsOld cfg offset (offset + data.length) s) :
    FileOk cfg { s with cache := s.cache.writeAt cfg.inode offset data now, content := splice s.content offset data } := by
  have hl := h.lookup_written offset now hdata
  have hlt : offset < offset + data.length := by omega
  have hmem := fun i => mem_chunkRange (i := i) defaultChunkSize_pos hlt
  have hmarks (i) : (s.cache.writeAt cfg.inode offset data now).markAt cfg.inode i =
      if i ∈ touched offset data then some (s.cache.curGen + 1)
      else s.cache.markAt cfg.inode i := by
    rw [markAt_writeAt _ _ hdata _ _ (h.chunkSizeOf_writeBase now)]
    simp only [true_and]
  refine ⟨⟨fun hnone => ?_, fun e he => ?_⟩, fun m hm => ?_⟩
  · rw [hl] at hnone
    cases hnone
  · rw [hl, some.injEq] at he
    subst he
    unfold written writeBase
    cases hbase : s.cache.entries.lookup cfg.inode with
    | some e =>
      refine (h.cache.entry e hbase).write hdata _ _ fun p hp hout hnone => hold.bytes p hp hout ?_
      rw [chunkAt_of_lookup hbase, hnone]
    | none =>
      show EntryOk (CachedEntry.write offset data _ now ({ size := 0, lastRead := now } : CachedEntry)) s.file _
      rw [CachedEntry.write_of_size_le { size := 0, lastRead := now } (hold.size hbase), h.cache.absent hbase]
      refine (EntryOk.empty rfl now 0).write hdata _ _ fun p hp hout _ => hold.bytes p hp hout ?_
      rw [chunkAt, hbase]
      rfl
  · have hold := h.manifest m hm
    have hunmarked (i) (hnone : (s.cache.writeAt cfg.inode offset data now).markAt cfg.inode i = none) :
        i ∉ touched offset data ∧ s.cache.markAt cfg.inode i = none := by
      rw [hmarks] at hnone
      split at hnone
      · cases hnone
      · next hi => exact ⟨hi, hnone⟩
    refine ⟨hold.chunkSize, fun hclean => ?_, fun i chunk hmark hsha => ?_, fun hmark hne => ?_⟩
    · -- the chunk the write starts in is dirty
      have hfirst := (hunmarked (offset / defaultChunkSize) (hclean _)).1
      obtain ⟨hp, hmod⟩ := div_mul_add_mod defaultChunkSize_pos offset
      exact absurd ((hmem _).mpr (by omega)) hfirst
    · obtain ⟨hi, hmark⟩ := hunmarked i hmark
      exact (hold.shas i chunk hmark hsha).splice (mt (hmem i).mpr hi)
    · obtain ⟨hi, hmark⟩ := hunmarked 0 hmark
      exact (hold.inline hmark hne).splice (mt (hmem 0).mpr hi)

/-- A write that does not find them loses them: a read at such a place is answered from the
entry, with nothing behind its size, and with a zero from the new chunk. -/
theorem not_visible_of_lost {offset now : Nat} {data : List UInt8} (hdata : 0 < data.length)
    (hlost : ¬ FindsOld cfg offset (offset + data.length) s) :
    ¬ OwnWritesVisible cfg
      { s with cache := s.cache.writeAt cfg.inode offset data now, content := splice s.content offset data } := by
  intro hvisible
  have hl := h.lookup_written offset now hdata
  have hlt : offset < offset + data.length := by omega
  obtain ⟨env, henv⟩ := exists_readEnv s.file
  have hread (p bytes) (hrange : (s.cache.written cfg.inode offset data now).range p 1 = some bytes) :
      bytes = slice (splice s.content offset data) p (p + 1) :=
    (read_of_range env hl hrange).symm.trans (hvisible.reads p 1 env one_pos henv)
  apply hlost
  refine ⟨fun hnone => ?_, fun p hp hout hnone => ?_⟩
  · by_contra hlong
    have hsize : (s.cache.written cfg.inode offset data now).size = offset + data.length := by
      rw [written, writeBase, hnone]
      exact max_eq_left (Nat.zero_le _)
    have hnil := hread (offset + data.length) [] (if_pos (le_of_eq hsize))
    rw [slice_one, if_pos (by rw [length_splice]; omega)] at hnil
    cases hnil
  · by_contra hbyte
    have hlen : p < s.content.length := by
      by_contra hge
      exact hbyte (byteAt_of_length_le (by omega))
    have hchunk : ((s.cache.writeBase cfg.inode now).chunks.lookup (p / defaultChunkSize)).getD [] = [] := by
      unfold writeBase
      cases hbase : s.cache.entries.lookup cfg.inode with
      | none => rfl
      | some e =>
        rw [chunkAt_of_lookup hbase] at hnone
        rw [getD_some, hnone]
        rfl
    obtain ⟨hdiv, hmod⟩ := div_mul_add_mod defaultChunkSize_pos p
    -- the chunk starts empty, so outside the write it is filled up with zeros
    have hzero := (CachedEntry.writtenChunk_spec [] ((mem_chunkRange defaultChunkSize_pos hlt).mp hp).2
      (le_max_left (offset + data.length) (s.cache.writeBase cfg.inode now).size)).2 _ hmod
    rw [hdiv, if_neg hout, byteAt_nil] at hzero
    have hlookup := (s.cache.writeBase cfg.inode now).lookup_write_chunks offset data (s.cache.curGen + 1) now
      (p / defaultChunkSize)
    rw [h.chunkSizeOf_writeBase, if_pos hp, hchunk] at hlookup
    have hcs : (s.cache.written cfg.inode offset data now).chunkSizeOf = defaultChunkSize := by
      show (if (s.cache.writeBase cfg.inode now).chunkSizeOf = 0 then defaultChunkSize
        else (s.cache.writeBase cfg.inode now).chunkSizeOf) = defaultChunkSize
      rw [h.chunkSizeOf_writeBase, ite_self]
    obtain ⟨bytes, hrange, hbytes⟩ := range_one_eq_zero hcs hlookup hzero
    have hslice := hread p bytes hrange
    rw [slice_one, if_pos (by rw [length_splice]; omega), byteAt_splice, if_neg hout] at hslice
    exact hbyte (hbytes _ (by rw [hslice]; exact mem_singleton_self _))

end FileOk

/-- What a call needs for the file to stay right. -/
def FileConfig.CallFinds (cfg : FileConfig) (s : FileState) : FileCall → Prop
  | .write offset data now => FindsOld cfg offset (offset + data.length) (cfg.prepareWrite offset data now s)
  | _ => True

theorem FileOk.step {cfg : FileConfig} {s s' : FileState} {call : FileCall} (h : FileOk cfg s)
    (hfinds : cfg.CallFinds s call) (hs : cfg.step s call = some s') : FileOk cfg s' := by
  cases call with
  | read offset size env =>
    obtain ⟨hread, ⟨⟩⟩ := ite_none_right_eq_some.mp hs
    exact (h.read hread.1 hread.2).1
  | write offset data now =>
    obtain ⟨hne, ⟨⟩⟩ := ite_none_left_eq_some.mp hs
    exact (h.prepareWrite offset data now).1.writeAt (length_pos_of_ne_nil hne) hfinds
  | setSize size now =>
    cases hs
    exact h.setSize size now
  | punchHole offset length now =>
    cases hs
    exact h.punchHole offset length now
  | flush =>
    cases hs
    exact h.flush
  | fsync =>
    cases hs
    exact h.syncAndFsync.1
  | syncVolume =>
    cases hs
    exact h.syncVolume.1

theorem FileOk.start (cfg : FileConfig) (maxBytes : Int) (content : List UInt8) : FileOk cfg (.start maxBytes content) :=
  ⟨⟨fun _ => rfl, nofun⟩, nofun⟩

/-- A node reads its own writes, all along a run, if and only if every write of it finds
the size of the file and the other bytes of its chunks. -/
theorem own_writes_visible_iff (cfg : FileConfig) (maxBytes : Int) (content : List UInt8) (calls : List FileCall) :
    Throughout cfg.step (OwnWritesVisible cfg) (.start maxBytes content) calls ↔
      Allowed cfg.step cfg.CallFinds (.start maxBytes content) calls := by
  refine throughout_iff_allowed_of_breaks (I := FileOk cfg) (fun s call s' h _ hfinds hs => ?_)
    (fun s call s' h _ hlost hs => ?_) calls (.start cfg maxBytes content) (FileOk.start cfg maxBytes content).visible
  · have hnext := h.step hfinds hs
    exact ⟨hnext, hnext.visible⟩
  · cases call with
    | write offset data now =>
      obtain ⟨hne, ⟨⟩⟩ := ite_none_left_eq_some.mp hs
      exact (h.prepareWrite offset data now).1.not_visible_of_lost (length_pos_of_ne_nil hne) hlost
    | read | setSize | punchHole | flush | fsync | syncVolume => exact absurd trivial hlost

/-- Nothing is read in for a write of one whole chunk. -/
theorem prepareWrite_whole_chunk (cfg : FileConfig) (maxBytes : Int) (content : List UInt8) (now : Nat)
    (hdata : data.length = defaultChunkSize) :
    cfg.prepareWrite 0 data now (.start maxBytes content) = .start maxBytes content := by
  have hpos := defaultChunkSize_pos
  have hone : chunkRange defaultChunkSize 0 (0 + defaultChunkSize) = [0] := by
    rw [chunkRange, Nat.zero_div, Nat.div_eq_of_lt (by omega)]
    rfl
  have hread : cfg.readIn (FileState.start maxBytes content).file 0 (0 + defaultChunkSize) now
      (FileState.start maxBytes content).cache 0 = (FileState.start maxBytes content).cache := if_neg (by omega)
  have hsync : cfg.syncVolume (.start maxBytes content) = .start maxBytes content := rfl
  unfold prepareWrite
  dsimp only
  rw [hdata, hone, foldl_cons, foldl_nil, hread]
  split
  · exact hsync
  · rfl

/-- A write of one whole chunk to a file of one chunk and one byte: the new entry takes the
end of the write for the end of the file. -/
theorem whole_chunk_write_hides_rest :
    ∃ s, exec (step ⟨2, false⟩) (.start 0 (zeros defaultChunkSize ++ [7]))
        [.write 0 (zeros defaultChunkSize) 0] = some s ∧
      slice s.content defaultChunkSize (defaultChunkSize + 1) = [7] ∧
      ∀ env, (FileConfig.read ⟨2, false⟩ defaultChunkSize 1 env s).2 = [] := by
  have hdata : 0 < (zeros defaultChunkSize : List UInt8).length := by
    rw [length_zeros]
    exact defaultChunkSize_pos
  have hok := FileOk.start ⟨2, false⟩ 0 (zeros defaultChunkSize ++ [7])
  have hl := hok.lookup_written 0 0 hdata
  refine ⟨{ FileState.start 0 (zeros defaultChunkSize ++ [7]) with
      cache := (new 0).writeAt 2 0 (zeros defaultChunkSize) 0
      content := splice (zeros defaultChunkSize ++ [7]) 0 (zeros defaultChunkSize) },
    ?_, ?_, fun env => read_of_range env hl (if_pos ?_)⟩
  · have hne : (zeros defaultChunkSize : List UInt8) ≠ [] := ne_nil_of_length_pos hdata
    simp only [exec, step, if_neg hne, write, prepareWrite_whole_chunk _ _ _ _ length_zeros]
    rfl
  · show slice (splice (zeros defaultChunkSize ++ [7]) 0 (zeros defaultChunkSize)) _ _ = _
    rw [slice_one, if_pos (by rw [length_splice, length_append, length_zeros, length_singleton]; omega),
      byteAt_splice, if_neg (by rw [length_zeros]; omega), byteAt_append, if_neg (by rw [length_zeros]; omega),
      length_zeros, Nat.sub_self]
    rfl
  · show max (0 + (zeros defaultChunkSize : List UInt8).length) 0 ≤ defaultChunkSize
    rw [length_zeros]
    omega

/-- Every byte that the controller does not have is in a chunk that is marked dirty and has it. -/
def FileConfig.DirtyCovers (cfg : FileConfig) (s : FileState) : Prop :=
  ∀ p, byteAt s.file p ≠ byteAt s.content p → ∃ gen chunk, s.cache.markAt cfg.inode (p / defaultChunkSize) = some gen ∧
    s.cache.chunkAt cfg.inode (p / defaultChunkSize) = some chunk ∧ byteAt chunk (p % defaultChunkSize) = byteAt s.content p

/-- **What is not written back is dirty**, all along a run whose writes find what they need. -/
theorem unsynced_bytes_dirty (cfg : FileConfig) (maxBytes : Int) (content : List UInt8) {calls : List FileCall}
    (hrun : Allowed cfg.step cfg.CallFinds (.start maxBytes content) calls) :
    Throughout cfg.step cfg.DirtyCovers (.start maxBytes content) calls := by
  refine hrun.throughout (I := FileOk cfg) (fun s h p hne => ?_) (fun _ _ _ h hfinds hs => h.step hfinds hs)
    (.start cfg maxBytes content)
  cases hl : s.cache.entries.lookup cfg.inode with
  | none => exact absurd (by rw [h.cache.absent hl]) hne
  | some e =>
    have he := h.cache.entry e hl
    obtain ⟨gen, chunk, hmark, hchunk, -⟩ := (he.bytes p).resolve_left hne
    refine ⟨gen, chunk, (markAt_of_lookup hl).trans hmark, (chunkAt_of_lookup hl).trans hchunk, ?_⟩
    rw [(he.chunks _ chunk hchunk).2.2.2 _ (Nat.mod_lt p defaultChunkSize_pos), Nat.div_add_mod']

theorem unsynced_bytes_dirty_write :
    Throughout (step ⟨2, false⟩) (FileConfig.DirtyCovers ⟨2, false⟩) (.start 0 []) [.write 0 [7] 0] := by
  have hcontent := ((FileOk.start ⟨2, false⟩ 0 []).prepareWrite 0 [7] 0).2
  exact unsynced_bytes_dirty ⟨2, false⟩ 0 [] ⟨⟨fun _ => hcontent ▸ Nat.zero_le _, fun _ _ _ _ => hcontent ▸ rfl⟩, trivial⟩

end InClusterStorage.Node
