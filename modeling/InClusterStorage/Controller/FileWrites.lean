import InClusterStorage.Controller.FileContent

/- What a write stages. The file as the next sync will leave it is, chunk by chunk,
   what is staged or else what the rows hold; a write whose base chunks are those of
   the rows changes its own range of it and nothing else. -/
namespace InClusterStorage.Controller

open Bytes List Option File

/-! The file with what is staged. -/

namespace File

/-- Chunk `i` as the next sync will leave it. -/
def current (f : File) (i : Nat) : List UInt8 :=
  match f.stagedChunks.lookup i with
  | some reference => reference.data
  | none => f.committed i

def currentByte (cs : Nat) (f : File) (p : Nat) : UInt8 := byteAt (f.current (p / cs)) (p % cs)

def size (f : File) : Nat := f.stagedSize.getD f.row.size

variable {f : File} {i : Nat}

theorem current_of_staged {r : StagedChunkReference} (h : f.stagedChunks.lookup i = some r) : f.current i = r.data := by
  rw [current, h]

theorem current_of_none (h : f.stagedChunks.lookup i = none) : f.current i = f.committed i := by
  rw [current, h]

/-- A size is staged as long as a chunk is. -/
abbrev Sized (f : File) : Prop := f.stagedSize.isSome ↔ ∃ i r, f.stagedChunks.lookup i = some r

end File

/-- Staged chunks in order: not empty, of `cs` bytes at most, ending within the staged
size. Inline data is staged along with any other chunk. -/
structure StagedOk (cs : Nat) (f : File) : Prop where
  nonempty : ∀ i r, f.stagedChunks.lookup i = some r → r.data ≠ []
  short : ∀ i r, f.stagedChunks.lookup i = some r → r.data.length ≤ cs
  fits : ∀ i r, f.stagedChunks.lookup i = some r → i * cs + r.data.length ≤ f.size
  packs : ∀ i r, f.stagedChunks.lookup i = some r → r.packID ≤ f.packID
  sized : f.stagedSize.isSome ↔ ∃ i r, f.stagedChunks.lookup i = some r
  inline : f.inlineData ≠ [] → (∃ i r, f.stagedChunks.lookup i = some r) → (f.stagedChunks.lookup 0).isSome

structure WellFormed (limits : Limits) (cs : Nat) (f : File) : Prop where
  rows : RowsOk limits cs f
  staged : StagedOk cs f
  grown : f.row.size ≤ f.size

theorem RowsOk.restaged {limits : Limits} {cs : Nat} {f : File} (h : RowsOk limits cs f)
    (chunks : AList fun _ : Nat => StagedChunkReference) (size : Option Nat) (packID : Nat) :
    RowsOk limits cs { f with stagedChunks := chunks, stagedSize := size, packID := packID } :=
  { h with }

theorem WellFormed.current_length_le {limits : Limits} {cs : Nat} {f : File} (h : WellFormed limits cs f) (i : Nat) :
    (f.current i).length ≤ cs ∧ (f.current i).length ≤ f.size - i * cs := by
  cases hs : f.stagedChunks.lookup i with
  | some r =>
    rw [current_of_staged hs]
    have hfits := h.staged.fits i r hs
    exact ⟨h.staged.short i r hs, by omega⟩
  | none =>
    rw [current_of_none hs]
    have hlen := h.rows.committed_length_le i
    have hgrown := h.grown
    exact ⟨h.rows.short i, by omega⟩

/-! One chunk of a write. -/

namespace Write

variable {w : Write} {cs size i : Nat} {chunkData : List UInt8}

theorem mem_chunks (hcs : 0 < cs) (hw : w.data ≠ []) : i ∈ w.chunks cs ↔ i * cs < w.stop ∧ w.offset < i * cs + cs := by
  have hlen := length_pos_iff.mpr hw
  exact mem_chunkRange hcs (show w.offset < w.offset + w.data.length by omega)

theorem length_chunkData (w : Write) (cs i : Nat) :
    (w.chunkData cs i).length = min (i * cs + cs - w.offset) w.data.length - (i * cs - w.offset) := by
  rw [chunkData, length_slice]
  omega

section Merge

variable (hi : i * cs < w.stop ∧ w.offset < i * cs + cs) (hsize : w.stop ≤ size)
include hi hsize

theorem length_mergeChunk :
    (w.mergeChunk cs size i chunkData).length = max chunkData.length (min (size - i * cs) cs) := by
  have hdata := w.length_chunkData cs i
  simp only [stop] at hi hsize
  simp only [mergeChunk, expectedChunkLength_eq]
  split
  case isTrue hlt =>
    rw [length_overwrite, length_resize]
    · omega
    · rw [length_resize, hdata, writeStart]
      omega
  case isFalse hlt =>
    rw [length_overwrite]
    · omega
    · rw [hdata, writeStart]
      omega

theorem byteAt_mergeChunk {q : Nat} (hq : q < cs) :
    byteAt (w.mergeChunk cs size i chunkData) q =
      if w.offset ≤ i * cs + q ∧ i * cs + q < w.stop then byteAt w.data (i * cs + q - w.offset)
      else byteAt chunkData q := by
  have hdata := w.length_chunkData cs i
  simp only [stop] at hi hsize ⊢
  simp only [mergeChunk, expectedChunkLength_eq]
  -- filling up with zeros reads as before
  have hgrown (grown : List UInt8) (hstart : w.writeStart cs i ≤ grown.length)
      (hsame : byteAt grown q = byteAt chunkData q) :
      byteAt (overwrite grown (w.writeStart cs i) (w.chunkData cs i)) q =
        if w.offset ≤ i * cs + q ∧ i * cs + q < w.offset + w.data.length then byteAt w.data (i * cs + q - w.offset)
        else byteAt chunkData q := by
    rw [byteAt_overwrite hstart, hdata, hsame]
    unfold writeStart at hstart ⊢
    split_ifs with h₁ h₂ h₂
    · rw [Write.chunkData, byteAt_slice, if_pos (by omega)]
      congr 1
      omega
    · omega
    · omega
    · rfl
  split
  case isTrue hlt =>
    apply hgrown
    · rw [length_resize, writeStart]
      omega
    · rw [byteAt_resize]
      split
      · rfl
      · rw [byteAt_of_length_le (by omega)]
  case isFalse hlt =>
    apply hgrown
    · rw [writeStart]
      omega
    · rfl

end Merge

end Write

/-! The last section of a write. -/

namespace File

variable {cs size : Nat} {baseChunks : AList fun _ : Nat => List UInt8} {w : Write} {node : CachedInode}

theorem stageChunks_frame (f : File) (indices : List Nat) :
    indices.foldl (stageChunk cs size baseChunks w) f =
      { f with stagedChunks := (indices.foldl (stageChunk cs size baseChunks w) f).stagedChunks } := by
  induction indices generalizing f with
  | nil => rfl
  | cons i indices ih =>
    rw [foldl_cons, ih]
    rfl

theorem lookup_stageChunks (f : File) {indices : List Nat} (hnodup : indices.Nodup) (j : Nat) :
    (indices.foldl (stageChunk cs size baseChunks w) f).stagedChunks.lookup j =
      if j ∈ indices then some { packID := f.packID, data := w.mergeChunk cs size j (f.chunkBefore baseChunks j) }
      else f.stagedChunks.lookup j := by
  -- a reference has the pack in it, so the loop is read with both
  let read (f : File) (i : Nat) := (f.packID, f.stagedChunks.lookup i, f.chunkBefore baseChunks i)
  let change (i : Nat) (old : Nat × Option StagedChunkReference × List UInt8) :
      Nat × Option StagedChunkReference × List UInt8 :=
    (old.1, some { packID := old.1, data := w.mergeChunk cs size i old.2.2 }, w.mergeChunk cs size i old.2.2)
  have hstep : ∀ (f : File) i j,
      read (stageChunk cs size baseChunks w f i) j = if j = i then change i (read f i) else read f j := by
    intro f i j
    by_cases hj : j = i
    · subst hj
      rw [if_pos rfl]
      simp only [read, change, stageChunk, setStagedChunk, chunkBefore, AList.lookup_insert]
    · rw [if_neg hj]
      simp only [read, stageChunk, setStagedChunk, chunkBefore, AList.lookup_insert_ne hj]
  have hread := congrArg (fun old => old.2.1) (Table.foldl_at read hstep hnodup f j)
  rwa [apply_ite fun old : Nat × Option StagedChunkReference × List UInt8 => old.2.1] at hread

theorem lookup_stageInline (f : File) (j : Nat) :
    (f.stageInline node).stagedChunks.lookup j =
      if (node.inlineData ≠ [] ∧ f.stagedChunks.lookup 0 = none) ∧ j = 0 then
        some { packID := f.packID, data := node.inlineData }
      else f.stagedChunks.lookup j := by
  unfold stageInline
  by_cases h : node.inlineData ≠ [] ∧ f.stagedChunks.lookup 0 = none
  · rw [if_pos (by simpa using h)]
    simp only [setStagedChunk, Table.lookup_insert, eq_true h, true_and]
  · rw [if_neg (by simpa using h)]
    simp only [h, false_and, if_false]

theorem stageInline_frame (f : File) :
    f.stageInline node = { f with stagedChunks := (f.stageInline node).stagedChunks } := by
  unfold stageInline
  split <;> rfl

end File

/-- What the write has read is what the rows hold: its base chunks are those of the
rows, and where it has read none, the write covers all the rows hold. -/
structure Fresh (cs : Nat) (f : File) (node : CachedInode) (baseChunks : AList fun _ : Nat => List UInt8)
    (w : Write) : Prop where
  loaded : Loaded f node
  base : ∀ i ∈ w.chunks cs, f.stagedChunks.lookup i = none →
    (baseChunks.lookup i).getD [] = f.committed i ∨
      baseChunks.lookup i = none ∧ w.writeStart cs i = 0 ∧ (f.committed i).length ≤ w.writeEnd cs i

section Stage

variable {limits : Limits} {cs : Nat} {f : File} {node : CachedInode}
  {baseChunks : AList fun _ : Nat => List UInt8} {w : Write}

theorem Fresh.chunkBefore (hfresh : Fresh cs f node baseChunks w) {i : Nat}
    (hi : i ∈ w.chunks cs) :
    (f.stageInline node).chunkBefore baseChunks i = f.current i ∨
      (f.stageInline node).chunkBefore baseChunks i = [] ∧
        w.writeStart cs i = 0 ∧ (f.current i).length ≤ w.writeEnd cs i := by
  unfold File.chunkBefore
  rw [f.lookup_stageInline]
  cases hs : f.stagedChunks.lookup i with
  | some r =>
    rw [if_neg (by rintro ⟨⟨_, h0⟩, rfl⟩; rw [hs] at h0; exact absurd h0 (by simp)), current_of_staged hs]
    exact .inl rfl
  | none =>
    rw [current_of_none hs]
    by_cases hinline : (node.inlineData ≠ [] ∧ f.stagedChunks.lookup 0 = none) ∧ i = 0
    · rw [if_pos hinline, hinline.2]
      have hne : f.inlineData ≠ [] := hfresh.loaded.inlineData ▸ hinline.1.1
      exact .inl (by rw [committed_zero hne, hfresh.loaded.inlineData])
    · rw [if_neg hinline]
      rcases hfresh.base i hi hs with hbase | ⟨hnone, hcover⟩
      · exact .inl hbase
      · exact .inr ⟨by rw [hnone]; rfl, hcover⟩

theorem stageWrite_eq :
    f.stageWrite limits node baseChunks w =
      { f with
        stagedChunks := (f.stageWrite limits node baseChunks w).stagedChunks
        stagedSize := some (f.calculatedSize node w) } := by
  simp only [stageWrite]
  rw [stageChunks_frame, stageInline_frame]

section

variable (h : WellFormed limits cs f)
include h

theorem calculatedSize_eq (hload : Loaded f node) : f.calculatedSize node w = max f.size w.stop := by
  have hgrown := h.grown
  unfold calculatedSize
  rw [hload.row]
  unfold size at hgrown ⊢
  cases hs : f.stagedSize with
  | none => simp only [getD_none]; omega
  | some size =>
    simp only [hs, getD_some] at hgrown ⊢
    omega

section

variable (hfresh : Fresh cs f node baseChunks w)
include hfresh

theorem Fresh.lookup_stageWrite (j : Nat) :
    (f.stageWrite limits node baseChunks w).stagedChunks.lookup j =
      if j ∈ w.chunks cs then
        some {
          packID := f.packID
          data := w.mergeChunk cs (max f.size w.stop) j ((f.stageInline node).chunkBefore baseChunks j) }
      else (f.stageInline node).stagedChunks.lookup j := by
  have hcs : limits.chunkSizeOf node.row = cs := by
    rw [hfresh.loaded.row]
    exact h.rows.chunkSizeOf
  have hnodup : (w.chunks cs).Nodup := chunkRange_nodup _ _ _
  simp only [stageWrite, hcs, calculatedSize_eq h hfresh.loaded]
  rw [lookup_stageChunks _ hnodup, f.stageInline_frame]

theorem Fresh.staged_cases {j : Nat}
    {r : StagedChunkReference} (hr : (f.stageWrite limits node baseChunks w).stagedChunks.lookup j = some r) :
    (j ∈ w.chunks cs ∧ r.packID = f.packID ∧
        r.data = w.mergeChunk cs (max f.size w.stop) j ((f.stageInline node).chunkBefore baseChunks j)) ∨
      (j ∉ w.chunks cs ∧ r.packID ≤ f.packID ∧ r.data = f.current j ∧ r.data ≠ []) := by
  rw [hfresh.lookup_stageWrite h] at hr
  by_cases hj : j ∈ w.chunks cs
  · rw [if_pos hj] at hr
    cases hr
    exact .inl ⟨hj, rfl, rfl⟩
  · rw [if_neg hj, f.lookup_stageInline] at hr
    refine .inr ⟨hj, ?_⟩
    split at hr
    case isTrue hinline =>
      cases hr
      have hne : f.inlineData ≠ [] := hfresh.loaded.inlineData ▸ hinline.1.1
      refine ⟨le_rfl, ?_, hinline.1.1⟩
      rw [hinline.2, current_of_none hinline.1.2, committed_zero hne, hfresh.loaded.inlineData]
    case isFalse =>
      exact ⟨h.staged.packs j r hr, (current_of_staged hr).symm, h.staged.nonempty j r hr⟩

theorem Fresh.before_length_le {i : Nat}
    (hi : i ∈ w.chunks cs) :
    ((f.stageInline node).chunkBefore baseChunks i).length ≤ cs ∧
      ((f.stageInline node).chunkBefore baseChunks i).length ≤ f.size - i * cs := by
  rcases hfresh.chunkBefore hi with heq | ⟨hnil, _⟩
  · rw [heq]
    exact h.current_length_le i
  · rw [hnil]
    exact ⟨Nat.zero_le _, Nat.zero_le _⟩

theorem Fresh.size_stageWrite : (f.stageWrite limits node baseChunks w).size = max f.size w.stop := by
  rw [stageWrite_eq, ← calculatedSize_eq h hfresh.loaded]
  rfl

end

theorem Fresh.stageWrite_wellFormed (hw : w.data ≠ [])
    (hfresh : Fresh cs f node baseChunks w) : WellFormed limits cs (f.stageWrite limits node baseChunks w) := by
  have hpos := h.rows.pos
  have hsize := hfresh.size_stageWrite h
  have hlen (j r) (hr : (f.stageWrite limits node baseChunks w).stagedChunks.lookup j = some r) :
      r.data ≠ [] ∧ r.data.length ≤ cs ∧ j * cs + r.data.length ≤ max f.size w.stop := by
    rcases hfresh.staged_cases h hr with ⟨hj, _, hdata⟩ | ⟨_, _, hdata, hne⟩
    · have hmem := (Write.mem_chunks hpos hw).mp hj
      have hbefore := hfresh.before_length_le h hj
      have hmerged : r.data.length = _ := hdata ▸ Write.length_mergeChunk hmem (le_max_right f.size w.stop)
      refine ⟨length_pos_iff.mp ?_, ?_, ?_⟩ <;> rw [hmerged] <;> omega
    · have hcur := h.current_length_le j
      have hpositive := length_pos_iff.mpr hne
      rw [← hdata] at hcur
      exact ⟨hne, hcur.1, by omega⟩
  have hfirst : (f.stageWrite limits node baseChunks w).stagedChunks.lookup (w.offset / cs) ≠ none := by
    have hsplit := div_mul_add_mod hpos w.offset
    have hpositive := length_pos_iff.mpr hw
    have hmem : w.offset / cs ∈ w.chunks cs := (Write.mem_chunks hpos hw).mpr (by rw [Write.stop]; omega)
    rw [hfresh.lookup_stageWrite h, if_pos hmem]
    simp
  constructor
  case rows =>
    rw [stageWrite_eq]
    exact h.rows.restaged _ _ f.packID
  case grown =>
    rw [hsize, stageWrite_eq]
    exact le_trans h.grown (le_max_left _ _)
  case staged =>
    refine ⟨fun j r hr => (hlen j r hr).1, fun j r hr => (hlen j r hr).2.1, fun j r hr => ?_, fun j r hr => ?_, ?_, ?_⟩
    · rw [hsize]
      exact (hlen j r hr).2.2
    · rw [stageWrite_eq]
      rcases hfresh.staged_cases h hr with ⟨_, hpack, _⟩ | ⟨_, hpack, _⟩
      · exact le_of_eq hpack
      · exact hpack
    · rw [stageWrite_eq]
      obtain ⟨r, hr⟩ := ne_none_iff_exists'.mp hfirst
      exact ⟨fun _ => ⟨_, r, hr⟩, fun _ => rfl⟩
    · intro hne _
      have hinline : node.inlineData ≠ [] := by
        rw [stageWrite_eq] at hne
        rwa [hfresh.loaded.inlineData]
      rw [hfresh.lookup_stageWrite h, f.lookup_stageInline]
      split
      · rfl
      split
      · rfl
      case isFalse hstaged =>
        rw [isSome_iff_ne_none]
        exact fun hnone => hstaged ⟨⟨hinline, hnone⟩, rfl⟩

theorem Fresh.currentByte_stageWrite (hw : w.data ≠ [])
    (hfresh : Fresh cs f node baseChunks w) (p : Nat) :
    (f.stageWrite limits node baseChunks w).currentByte cs p =
      if w.offset ≤ p ∧ p < w.stop then byteAt w.data (p - w.offset) else f.currentByte cs p := by
  have hpos := h.rows.pos
  obtain ⟨hp, hq⟩ := div_mul_add_mod hpos p
  unfold currentByte
  generalize hj : p / cs = j at hp ⊢
  generalize p % cs = q at hp hq ⊢
  by_cases hmem : j ∈ w.chunks cs
  · have hrange := (Write.mem_chunks hpos hw).mp hmem
    have hstaged := hfresh.lookup_stageWrite h j
    rw [if_pos hmem] at hstaged
    rw [current_of_staged hstaged, Write.byteAt_mergeChunk hrange (le_max_right _ _) hq, hp]
    split
    · rfl
    case isFalse hout =>
      rcases hfresh.chunkBefore hmem with heq | ⟨hnil, hstart, hend⟩
      · rw [heq]
      -- the write covers the chunk from its start: beyond the write there was nothing
      rw [hnil, byteAt_nil, byteAt_of_length_le]
      unfold Write.writeStart Write.writeEnd at *
      omega
  · have hrange := mt (Write.mem_chunks hpos hw).mpr hmem
    rw [if_neg (by omega)]
    cases hs : (f.stageWrite limits node baseChunks w).stagedChunks.lookup j with
    | some r =>
      rcases hfresh.staged_cases h hs with ⟨hj, _⟩ | ⟨_, _, hdata, _⟩
      · exact absurd hj hmem
      · rw [current_of_staged hs, hdata]
    | none =>
      have hstaged := hfresh.lookup_stageWrite h j
      rw [if_neg hmem, f.lookup_stageInline, hs] at hstaged
      split at hstaged
      · simp at hstaged
      · rw [current_of_none hs, current_of_none hstaged.symm, stageWrite_eq]
        rfl

end

end Stage

/-! The sections before. -/

/-- A write that has decided which base chunks it needs, and has still to read the
ones in the list. -/
structure Reading (cs : Nat) (f : File) (node : CachedInode) (needed : List Nat)
    (baseChunks : AList fun _ : Nat => List UInt8) (w : Write) : Prop where
  loaded : Loaded f node
  nodup : needed.Nodup
  unread : ∀ i ∈ needed, baseChunks.lookup i = none
  base : ∀ i ∈ w.chunks cs, f.stagedChunks.lookup i = none → i ∉ needed →
    (baseChunks.lookup i).getD [] = f.committed i ∨
      baseChunks.lookup i = none ∧ w.writeStart cs i = 0 ∧ (f.committed i).length ≤ w.writeEnd cs i

section Sections

variable {limits : Limits} {cs : Nat} {f : File} {node : CachedInode} {needed : List Nat}
  {baseChunks : AList fun _ : Nat => List UInt8} {w : Write}

theorem Reading.fresh (hr : Reading cs f node [] baseChunks w) : Fresh cs f node baseChunks w :=
  ⟨hr.loaded, fun i hi hs => hr.base i hi hs not_mem_nil⟩

section

variable (h : RowsOk limits cs f)
include h

/-- A chunk that is not needed is staged, or the write covers what the rows hold. -/
theorem Reading.plan (hload : Loaded f node) : Reading cs f node (f.neededBaseChunks limits node w) ∅ w := by
  have hcs : limits.chunkSizeOf node.row = cs := by
    rw [hload.row]
    exact h.chunkSizeOf
  refine ⟨hload, ?_, fun _ _ => rfl, fun i hi hs hnot => .inr ⟨rfl, ?_⟩⟩
  · exact List.Nodup.filter _ (chunkRange_nodup _ _ _)
  · simp only [neededBaseChunks, hcs, mem_filter, hi, hs, true_and, isNone_none, decide_eq_true_eq,
      expectedChunkLength_eq] at hnot
    have hlen := h.committed_length_le i
    have hshort := h.short i
    have hsize : f.row.size ≤ f.calculatedSize node w := by
      rw [calculatedSize, hload.row]
      omega
    omega

theorem Reading.read {i : Nat} (hr : Reading cs f node (i :: needed) baseChunks w) :
    Reading cs f (f.readBaseChunk (node, baseChunks) i).1 needed (f.readBaseChunk (node, baseChunks) i).2 w := by
  obtain ⟨hload, hdata⟩ := h.readChunk hr.loaded i
  have hi : i ∉ needed := (nodup_cons.mp hr.nodup).1
  have hlookup (j) : (f.readBaseChunk (node, baseChunks) i).2.lookup j =
      if j = i ∧ f.committed i ≠ [] then some (f.committed i) else baseChunks.lookup j := by
    simp only [readBaseChunk, hdata]
    by_cases hne : f.committed i = []
    · simp [hne]
    · simp [hne, Table.lookup_insert]
  refine ⟨hload, (nodup_cons.mp hr.nodup).2, ?_, ?_⟩
  · intro j hj
    have hne : ¬ (j = i ∧ f.committed i ≠ []) := fun hn => hi (hn.1 ▸ hj)
    rw [hlookup, if_neg hne]
    exact hr.unread j (mem_cons_of_mem i hj)
  · intro j hj hs hnot
    rw [hlookup]
    by_cases hji : j = i
    · subst hji
      have hunread := hr.unread j mem_cons_self
      by_cases hne : f.committed j = []
      · exact .inl (by simp [hne, hunread])
      · exact .inl (by simp [hne])
    · rw [if_neg (fun hn => hji hn.1)]
      exact hr.base j hj hs (by simp [hji, hnot])

theorem Reading.read_all (hr : Reading cs f node needed baseChunks w) :
    Fresh cs f (needed.foldl f.readBaseChunk (node, baseChunks)).1
      (needed.foldl f.readBaseChunk (node, baseChunks)).2 w := by
  induction needed generalizing node baseChunks with
  | nil => exact hr.fresh
  | cons i needed ih => exact ih (hr.read h)

/-- A write with no other call in between is merged with the rows as they are. -/
theorem fresh_writeFile :
    ∃ node baseChunks, Fresh cs f node baseChunks w ∧ f.writeFile limits w = f.stageWrite limits node baseChunks w :=
  ⟨_, _, (Reading.plan h h.loaded_getOrLoadInode).read_all h, rfl⟩

end

end Sections

end InClusterStorage.Controller
