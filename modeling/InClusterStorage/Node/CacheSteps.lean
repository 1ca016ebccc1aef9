import InClusterStorage.Node.Cache

/- What each operation of the node's cache leaves of the entries.

   An eviction or an invalidation takes clean entries only (`Sheds`). A local change of an
   inode, or a reply for it, changes the entry of that inode and may shed others. -/
namespace InClusterStorage.Node

open Bytes Table CachedEntry List Option
open Controller (chunkRange mem_chunkRange div_mul_add_mod expectedChunkLength_eq)

theorem defaultChunkSize_pos : 0 < defaultChunkSize := by
  unfold defaultChunkSize
  decide

theorem defaultChunkSize_ne_zero : defaultChunkSize ≠ 0 := ne_of_gt defaultChunkSize_pos

/-- The chunks that a write touches. -/
abbrev touched (offset : Nat) (data : List UInt8) : List Nat := chunkRange defaultChunkSize offset (offset + data.length)

/-- The entry of an inode stays as it is, or it was clean and goes. -/
def Kept (before after : Option CachedEntry) : Prop :=
  after = before ∨ after = none ∧ ∀ e, before = some e → ¬ e.Dirty

theorem Kept.refl (e : Option CachedEntry) : Kept e e := .inl rfl

theorem Kept.trans {a b c : Option CachedEntry} (hab : Kept a b) (hbc : Kept b c) : Kept a c := by
  cases hbc with
  | inl h => exact h ▸ hab
  | inr h =>
    cases hab with
    | inl h' => exact .inr (h' ▸ h)
    | inr h' => exact .inr ⟨h.1, h'.2⟩

theorem Kept.of_dirty {before after : Option CachedEntry} {e : CachedEntry} (h : Kept before after)
    (hbefore : before = some e) (hdirty : e.Dirty) : after = some e := by
  cases h with
  | inl h => rw [h, hbefore]
  | inr h => exact absurd hdirty (h.2 e hbefore)

theorem Kept.of_some {before after : Option CachedEntry} {e : CachedEntry} (h : Kept before after)
    (hafter : after = some e) : before = some e := by
  cases h with
  | inl h => rw [← h, hafter]
  | inr h => rw [hafter] at h; simp at h

/-- `c'` is `c` without some of its clean entries. -/
structure Sheds (c c' : NodeCache) : Prop where
  curGen : c'.curGen = c.curGen
  lookup : ∀ inode, Kept (c.entries.lookup inode) (c'.entries.lookup inode)

namespace Sheds

theorem refl (c : NodeCache) : Sheds c c := ⟨rfl, fun _ => .refl _⟩

theorem trans {a b c : NodeCache} (hab : Sheds a b) (hbc : Sheds b c) : Sheds a c :=
  ⟨hbc.curGen.trans hab.curGen, fun inode => (hab.lookup inode).trans (hbc.lookup inode)⟩

end Sheds

namespace CachedEntry

theorem dirty_iff {e : CachedEntry} : e.Dirty ↔ (∃ i gen, e.dirtyChunks.lookup i = some gen) ∨ e.sizeGen ≠ 0 := by
  unfold Dirty
  rw [length_pos]

theorem Dirty.of_mark {e : CachedEntry} {i : Nat} {gen : Nat} (h : e.dirtyChunks.lookup i = some gen) : e.Dirty :=
  dirty_iff.mpr (.inl ⟨i, gen, h⟩)

theorem mark_of_not_dirty {e : CachedEntry} (h : ¬ e.Dirty) (i : Nat) : e.dirtyChunks.lookup i = none := by
  cases hm : e.dirtyChunks.lookup i with
  | none => rfl
  | some gen => exact absurd (Dirty.of_mark hm) h

/-! The chunks of an entry after a local change. -/

variable {e : CachedEntry}

/-- A written chunk is filled up to the length it can have, and outside the write it has
the bytes it had. -/
theorem writtenChunk_spec {cs newSize offset i : Nat} {data : List UInt8} (chunk : List UInt8)
    (hi : offset < i * cs + cs) (hsize : offset + data.length ≤ newSize) :
    (writtenChunk cs newSize offset data i chunk).length = max chunk.length (min (newSize - i * cs) cs) ∧
      ∀ q, q < cs → byteAt (writtenChunk cs newSize offset data i chunk) q =
        if offset ≤ i * cs + q ∧ i * cs + q < offset + data.length then byteAt data (i * cs + q - offset)
        else byteAt chunk q := by
  have hlen : (slice data (i * cs - offset) (min (i * cs + cs - offset) data.length)).length =
      min (i * cs + cs - offset) data.length - (i * cs - offset) := by
    rw [length_slice]
    omega
  unfold writtenChunk
  rw [expectedChunkLength_eq]
  -- the buffer before the write
  obtain ⟨buf, hbuf, hbuflen, hbytes⟩ : ∃ buf : List UInt8,
      (if chunk.length < min (newSize - i * cs) cs then resize (min (newSize - i * cs) cs) chunk else chunk) = buf ∧
      buf.length = max chunk.length (min (newSize - i * cs) cs) ∧ ∀ q, byteAt buf q = byteAt chunk q := by
    refine ⟨_, rfl, ?_, fun q => ?_⟩
    · split
      · rw [length_resize]
        omega
      · omega
    · split
      · rw [byteAt_resize]
        split
        · rfl
        · rw [byteAt_of_length_le (by omega)]
      · rfl
  dsimp only
  rw [hbuf]
  have hfits : min (newSize - i * cs) cs ≤ buf.length := by omega
  refine ⟨?_, fun q hq => ?_⟩
  · rw [length_overwrite (by rw [hlen]; omega), hbuflen]
  · rw [byteAt_overwrite (by omega), hlen, hbytes]
    by_cases hin : offset ≤ i * cs + q ∧ i * cs + q < offset + data.length
    · rw [if_pos hin, if_pos (by omega), byteAt_slice, if_pos (by omega)]
      congr 1
      omega
    · rw [if_neg hin, if_neg (by omega)]

theorem lookup_write_chunks (offset : Nat) (data : List UInt8) (gen : Nat) (now i : Nat) :
    (e.write offset data gen now).chunks.lookup i =
      if i ∈ chunkRange e.chunkSizeOf offset (offset + data.length) then
        some (writtenChunk e.chunkSizeOf (max (offset + data.length) e.size) offset data i ((e.chunks.lookup i).getD []))
      else e.chunks.lookup i := by
  show AList.lookup i (foldl _ _ _) = _
  rw [lookup_foldl_insert]

theorem lookup_write_marks (offset : Nat) (data : List UInt8) (gen : Nat) (now i : Nat) :
    (e.write offset data gen now).dirtyChunks.lookup i =
      if i ∈ chunkRange e.chunkSizeOf offset (offset + data.length) then some gen else e.dirtyChunks.lookup i := by
  show AList.lookup i (foldl _ _ _) = _
  rw [lookup_foldl_insert fun _ => gen]

variable (chunkIdx gen : Nat)

theorem lookup_markChunkClean (i : Nat) :
    (e.markChunkClean chunkIdx gen).dirtyChunks.lookup i =
      if i = chunkIdx ∧ ∃ dirtyGen ≤ gen, e.dirtyChunks.lookup i = some dirtyGen then none
      else e.dirtyChunks.lookup i := by
  unfold markChunkClean
  cases hm : e.dirtyChunks.lookup chunkIdx with
  | none =>
    rw [if_neg]
    rintro ⟨rfl, dirtyGen, -, hd⟩
    rw [hm] at hd
    cases hd
  | some dirtyGen =>
    by_cases hle : dirtyGen ≤ gen
    · simp only [hle, if_true, lookup_erase]
      by_cases hi : i = chunkIdx
      · subst hi
        rw [if_pos rfl, if_pos ⟨rfl, dirtyGen, hle, hm⟩]
      · rw [if_neg hi, if_neg (fun h => hi h.1)]
    · simp only [hle, if_false]
      rw [if_neg]
      rintro ⟨rfl, g, hg, hd⟩
      rw [hm, some.injEq] at hd
      omega

@[simp] theorem markChunkClean_chunks : (e.markChunkClean chunkIdx gen).chunks = e.chunks := by
  unfold markChunkClean
  split
  · split <;> rfl
  · rfl

@[simp] theorem markChunkClean_generation : (e.markChunkClean chunkIdx gen).generation = e.generation := by
  unfold markChunkClean
  split
  · split <;> rfl
  · rfl

/-- An acknowledgement of the chunks `indices`, with the generations they were sent in. -/
def markChunksClean (gens : AList fun _ : Nat => Nat) (indices : List Nat) (e : CachedEntry) : CachedEntry :=
  indices.foldl (fun e i => e.markChunkClean i ((gens.lookup i).getD 0)) e

theorem markChunkClean_sizes :
    (e.markChunkClean chunkIdx gen).size = e.size ∧ (e.markChunkClean chunkIdx gen).chunkSize = e.chunkSize ∧
      (e.markChunkClean chunkIdx gen).sizeGen = e.sizeGen := by
  unfold markChunkClean
  split
  · split <;> exact ⟨rfl, rfl, rfl⟩
  · exact ⟨rfl, rfl, rfl⟩

theorem markChunksClean_spec (gens : AList fun _ : Nat => Nat) (indices : List Nat) (e : CachedEntry) :
    (e.markChunksClean gens indices).size = e.size ∧ (e.markChunksClean gens indices).chunkSize = e.chunkSize ∧
      (e.markChunksClean gens indices).sizeGen = e.sizeGen ∧ (e.markChunksClean gens indices).chunks = e.chunks ∧
      ∀ i, (e.markChunksClean gens indices).dirtyChunks.lookup i =
        if i ∈ indices ∧ ∃ gen ≤ (gens.lookup i).getD 0, e.dirtyChunks.lookup i = some gen then none
        else e.dirtyChunks.lookup i := by
  induction indices generalizing e with
  | nil => simp [markChunksClean]
  | cons j indices ih =>
    obtain ⟨hsize, hchunkSize, hsizeGen, hchunks, hmarks⟩ := ih (e.markChunkClean j ((gens.lookup j).getD 0))
    obtain ⟨hsize', hchunkSize', hsizeGen'⟩ := e.markChunkClean_sizes j ((gens.lookup j).getD 0)
    refine ⟨hsize.trans hsize', hchunkSize.trans hchunkSize', hsizeGen.trans hsizeGen',
      hchunks.trans (markChunkClean_chunks ..), fun i => ?_⟩
    refine (hmarks i).trans ?_
    rw [lookup_markChunkClean]
    by_cases hj : i = j ∧ ∃ gen ≤ (gens.lookup j).getD 0, e.dirtyChunks.lookup i = some gen
    · rw [if_pos hj, ite_self, if_pos]
      obtain ⟨rfl, hgen⟩ := hj
      exact ⟨mem_cons_self, hgen⟩
    · rw [if_neg hj]
      refine if_congr ?_ rfl rfl
      constructor
      · exact fun h => ⟨mem_cons_of_mem _ h.1, h.2⟩
      · intro h
        refine ⟨(mem_cons.mp h.1).resolve_left fun heq => hj ⟨heq, ?_⟩, h.2⟩
        exact heq ▸ h.2

@[simp] theorem markSizeClean_chunks : (e.markSizeClean gen).chunks = e.chunks := by
  unfold markSizeClean
  split <;> rfl

@[simp] theorem markSizeClean_dirtyChunks : (e.markSizeClean gen).dirtyChunks = e.dirtyChunks := by
  unfold markSizeClean
  split <;> rfl

@[simp] theorem markSizeClean_generation : (e.markSizeClean gen).generation = e.generation := by
  unfold markSizeClean
  split <;> rfl

end CachedEntry

namespace NodeCache

variable {c : NodeCache}

/-- The bytes of a chunk, if it is in the cache. -/
def chunkAt (inode i : Nat) (c : NodeCache) : Option (List UInt8) := (c.entries.lookup inode).bind (·.chunks.lookup i)

/-- The generation a chunk is marked dirty with. -/
def markAt (inode i : Nat) (c : NodeCache) : Option Nat := (c.entries.lookup inode).bind (·.dirtyChunks.lookup i)

variable {e : CachedEntry} {inode chunkSize gen now totalSize : Nat} {data : List UInt8}

theorem markAt_of_lookup {i : Nat} (h : c.entries.lookup inode = some e) : c.markAt inode i = e.dirtyChunks.lookup i := by
  rw [markAt, h]
  rfl

theorem chunkAt_of_lookup {i : Nat} (h : c.entries.lookup inode = some e) : c.chunkAt inode i = e.chunks.lookup i := by
  rw [chunkAt, h]
  rfl

theorem markAt_of_kept {c' : NodeCache} (h : Kept (c.entries.lookup inode) (c'.entries.lookup inode))
    (i : Nat) : c'.markAt inode i = c.markAt inode i := by
  unfold markAt
  cases h with
  | inl heq => rw [heq]
  | inr hgone =>
    rw [hgone.1]
    cases hl : c.entries.lookup inode with
    | none => rfl
    | some e => exact (mark_of_not_dirty (hgone.2 e hl) i).symm

/-! Clean entries go. -/

theorem sheds_dropEntry (h : ∀ e, c.entries.lookup inode = some e → ¬ e.Dirty) : Sheds c (c.dropEntry inode) := by
  unfold dropEntry
  cases hl : c.entries.lookup inode with
  | none => exact .refl c
  | some entry =>
    refine ⟨rfl, fun inode' => ?_⟩
    rw [lookup_erase]
    split
    case isTrue heq => subst heq; exact .inr ⟨rfl, h⟩
    case isFalse => exact .refl _

theorem oldestClean_spec {time : Nat} :
    ∀ {l : List ((_ : Nat) × CachedEntry)}, oldestClean l = some (inode, time) → ∃ e, ⟨inode, e⟩ ∈ l ∧ ¬ e.Dirty := by
  intro l
  induction l with
  | nil => intro h; cases h
  | cons entry l ih =>
    intro h
    obtain ⟨inode', e⟩ := entry
    unfold oldestClean at h
    have htail : oldestClean l = some (inode, time) →
        ∃ e', ⟨inode, e'⟩ ∈ (⟨inode', e⟩ : (_ : Nat) × CachedEntry) :: l ∧ ¬ e'.Dirty := by
      intro h'
      obtain ⟨e', hmem, hclean⟩ := ih h'
      exact ⟨e', mem_cons_of_mem _ hmem, hclean⟩
    split at h
    case isTrue => exact htail h
    case isFalse hd =>
      have hhead : inode' = inode → ∃ e', ⟨inode, e'⟩ ∈ (⟨inode', e⟩ : (_ : Nat) × CachedEntry) :: l ∧ ¬ e'.Dirty := by
        intro heq
        subst heq
        exact ⟨e, mem_cons_self, hd⟩
      cases ho : oldestClean l with
      | none =>
        simp only [ho, some.injEq, Prod.mk.injEq] at h
        exact hhead h.1
      | some found =>
        obtain ⟨oldest, t⟩ := found
        simp only [ho] at h
        split at h
        · exact htail (ho.trans h)
        · simp only [some.injEq, Prod.mk.injEq] at h
          exact hhead h.1

theorem sheds_evictEntries (neededBytes : Int) (turns : Nat) (c : NodeCache) :
    Sheds c (c.evictEntries neededBytes turns) := by
  induction turns generalizing c with
  | zero => exact .refl c
  | succ turns ih =>
    unfold evictEntries
    split
    · exact .refl c
    cases ho : oldestClean c.entries.entries with
    | none => exact .refl c
    | some found =>
      obtain ⟨inode, time⟩ := found
      obtain ⟨e, hmem, hclean⟩ := oldestClean_spec ho
      have hlook : c.entries.lookup inode = some e := mem_entries.mp hmem
      by_cases hzero : inode = 0
      · simp only [hzero, if_true]
        exact .refl c
      · simp only [hzero, if_false]
        apply Sheds.trans (sheds_dropEntry _) (ih _)
        intro e' he'
        rw [hlook, some.injEq] at he'
        exact he' ▸ hclean

theorem sheds_evictIfNeededLocked (neededBytes : Int) (c : NodeCache) : Sheds c (c.evictIfNeededLocked neededBytes) :=
  sheds_evictEntries neededBytes _ c

theorem sheds_invalidateIfNotDirty (inode : Nat) (c : NodeCache) : Sheds c (c.invalidateIfNotDirty inode) := by
  unfold invalidateIfNotDirty
  cases hl : c.entries.lookup inode with
  | none => exact .refl c
  | some entry =>
    by_cases hd : entry.Dirty
    · simp only [hd, if_true]
      exact .refl c
    simp only [hd, if_false]
    apply sheds_dropEntry
    intro e he
    rw [hl, some.injEq] at he
    exact he ▸ hd

theorem sheds_invalidateAllClean (c : NodeCache) : Sheds c c.invalidateAllClean := by
  unfold invalidateAllClean
  generalize c.entries.keys = inodes
  induction inodes generalizing c with
  | nil => exact .refl c
  | cons inode inodes ih => exact (sheds_invalidateIfNotDirty inode c).trans (ih _)

/-! The entry of one inode changes. -/

theorem lookup_store (inode : Nat) (old entry : CachedEntry) (c : NodeCache) (inode' : Nat) :
    (c.store inode old entry).entries.lookup inode' = if inode' = inode then some entry else c.entries.lookup inode' :=
  lookup_insert _ _ _ _

theorem lookup_modifyEntry (inode : Nat) (f : CachedEntry → CachedEntry) (c : NodeCache) (inode' : Nat) :
    (c.modifyEntry inode f).entries.lookup inode' =
      if inode' = inode then (c.entries.lookup inode').map f else c.entries.lookup inode' := by
  rw [← lookup_modify, modifyEntry]
  cases c.entries.lookup inode <;> rfl

theorem lookup_markChunksClean (inode : Nat) (gens : AList fun _ : Nat => Nat) (indices : List Nat) (c : NodeCache)
    (inode' : Nat) :
    (indices.foldl (fun c i => c.markChunkClean inode i ((gens.lookup i).getD 0)) c).entries.lookup inode' =
      if inode' = inode then (c.entries.lookup inode').map (·.markChunksClean gens indices)
      else c.entries.lookup inode' := by
  induction indices generalizing c with
  | nil =>
    split
    · exact map_id'.symm
    · rfl
  | cons j indices ih =>
    rw [foldl_cons, ih, markChunkClean, lookup_modifyEntry]
    split
    · rw [Option.map_map]
      rfl
    · rfl

@[simp] theorem modifyEntry_curGen (inode : Nat) (f : CachedEntry → CachedEntry) (c : NodeCache) :
    (c.modifyEntry inode f).curGen = c.curGen := by
  unfold modifyEntry
  split <;> rfl

theorem lookup_touch (inode now : Nat) (c : NodeCache) (inode' : Nat) :
    (c.touch inode now).entries.lookup inode' =
      if inode' = inode then (c.entries.lookup inode').map fun e => { e with lastRead := now }
      else c.entries.lookup inode' := by
  rw [← lookup_modify, touch]
  cases c.entries.lookup inode <;> rfl

@[simp] theorem touch_curGen (inode now : Nat) (c : NodeCache) : (c.touch inode now).curGen = c.curGen := by
  unfold touch
  split <;> rfl

theorem getGeneration_of_none (h : c.entries.lookup inode = none) : c.getGeneration inode = c.curGen := by
  rw [getGeneration, h]

theorem getGeneration_of_some (h : c.entries.lookup inode = some e) : c.getGeneration inode = e.generation := by
  rw [getGeneration, h]

/-! `PutChunk`. -/

theorem putChunk_of_lt {chunkIdx : Nat}
    (h : gen < c.getGeneration inode) : c.putChunk inode chunkIdx chunkSize totalSize data gen now = c := by
  simp only [putChunk, h, if_true]

theorem entryFor_of_some (h : c.entries.lookup inode = some e) : c.entryFor inode chunkSize totalSize gen now = e := by
  rw [entryFor, h]

theorem entryFor_of_none (h : c.entries.lookup inode = none) :
    c.entryFor inode chunkSize totalSize gen now =
      { size := totalSize, lastRead := now, chunkSize, generation := gen } := by
  rw [entryFor, h]

theorem entryFor_keeps_of_none {chunkIdx chunkStart : Nat}
    (h : c.entries.lookup inode = none) :
    ¬ (c.entryFor inode chunkSize totalSize gen now).Keeps chunkIdx chunkStart := by
  rw [entryFor_of_none h]
  intro hk
  cases hk with
  | inl hmark => cases hmark
  | inr hdirty =>
    cases hdirty.1 with
    | inl hlen => exact absurd hlen (lt_irrefl 0)
    | inr hgen => exact hgen rfl

theorem putChunk_curGen (inode chunkIdx chunkSize totalSize : Nat) (data : List UInt8) (gen now : Nat)
    (c : NodeCache) : (c.putChunk inode chunkIdx chunkSize totalSize data gen now).curGen = c.curGen := by
  unfold putChunk
  simp only
  generalize (if chunkSize = 0 then defaultChunkSize else chunkSize) = cs
  split
  · rfl
  generalize c.entryFor inode cs totalSize gen now = entry
  have hadd : (if (c.entries.lookup inode).isSome then c else { c with entries := c.entries.insert inode entry }).curGen =
      c.curGen := by
    split <;> rfl
  by_cases hk : entry.Keeps chunkIdx (chunkIdx * cs)
  · rwa [if_pos hk]
  · rwa [if_neg hk, (sheds_evictIfNeededLocked _ _).curGen]

/-- A reply for an inode sheds entries, or else it fills the entry of the inode, which has
no newer generation. -/
theorem lookup_putChunk (inode chunkIdx : Nat) (hcs : chunkSize ≠ 0) (totalSize : Nat)
    (data : List UInt8) (gen now : Nat) (c : NodeCache) (inode' : Nat) :
    Kept (c.entries.lookup inode') ((c.putChunk inode chunkIdx chunkSize totalSize data gen now).entries.lookup inode') ∨
      inode' = inode ∧ c.getGeneration inode ≤ gen ∧
        ¬ (c.entryFor inode chunkSize totalSize gen now).Keeps chunkIdx (chunkIdx * chunkSize) ∧
        (c.putChunk inode chunkIdx chunkSize totalSize data gen now).entries.lookup inode' =
          some ((c.entryFor inode chunkSize totalSize gen now).fill chunkIdx chunkSize totalSize data now) := by
  unfold putChunk
  simp only [hcs, if_false]
  split
  · exact .inl (.refl _)
  rename_i hgen
  have hkeeps : c.entries.lookup inode = none →
      ¬ (c.entryFor inode chunkSize totalSize gen now).Keeps chunkIdx (chunkIdx * chunkSize) := entryFor_keeps_of_none
  generalize c.entryFor inode chunkSize totalSize gen now = entry at hkeeps ⊢
  generalize hadd : (if (c.entries.lookup inode).isSome then c
    else { c with entries := c.entries.insert inode entry }) = added
  have hother : inode' ≠ inode → added.entries.lookup inode' = c.entries.lookup inode' := by
    intro hne
    subst hadd
    split
    · rfl
    · exact AList.lookup_insert_ne hne
  have hown (e) (he : c.entries.lookup inode = some e) : added = c := by
    rw [← hadd, he]
    rfl
  by_cases hk : entry.Keeps chunkIdx (chunkIdx * chunkSize)
  · rw [if_pos hk]
    cases hl : c.entries.lookup inode with
    | none => exact absurd hk (hkeeps hl)
    | some e =>
      rw [hown e hl]
      exact .inl (.refl _)
  · rw [if_neg hk]
    have hsheds := sheds_evictIfNeededLocked (entry.taken (chunkIdx * chunkSize) data).length
      { added with curBytes := added.curBytes - ((entry.chunks.lookup chunkIdx).getD []).length }
    generalize evictIfNeededLocked _ _ = evicted at hsheds ⊢
    have hlookup : Kept (added.entries.lookup inode') (evicted.entries.lookup inode') := hsheds.lookup inode'
    by_cases heq : inode' = inode
    · subst heq
      cases he : evicted.entries.lookup inode' with
      | some e =>
        refine .inr ⟨rfl, Nat.le_of_not_lt hgen, hk, ?_⟩
        exact AList.lookup_insert _
      | none =>
        left
        rw [if_neg (by simp), he]
        cases hl : c.entries.lookup inode' with
        | none => exact .refl _
        | some e =>
          rwa [hown e hl, hl, he] at hlookup
    · left
      have hsame : (if (evicted.entries.lookup inode).isSome then
          evicted.entries.insert inode (entry.fill chunkIdx chunkSize totalSize data now)
          else evicted.entries).lookup inode' = evicted.entries.lookup inode' := by
        split
        · exact AList.lookup_insert_ne heq
        · rfl
      rwa [hsame, ← hother heq]

theorem markAt_putChunk (inode chunkIdx : Nat) (hcs : chunkSize ≠ 0) (totalSize : Nat)
    (data : List UInt8) (gen now : Nat) (c : NodeCache) (inode' i : Nat) :
    (c.putChunk inode chunkIdx chunkSize totalSize data gen now).markAt inode' i = c.markAt inode' i := by
  cases c.lookup_putChunk inode chunkIdx hcs totalSize data gen now inode' with
  | inl hkept => exact markAt_of_kept hkept i
  | inr hfilled =>
    obtain ⟨rfl, -, -, hl⟩ := hfilled
    rw [markAt_of_lookup hl]
    show (c.entryFor inode' chunkSize totalSize gen now).dirtyChunks.lookup i = _
    cases hold : c.entries.lookup inode' with
    | none =>
      rw [entryFor_of_none hold, markAt, hold]
      rfl
    | some e => rw [entryFor_of_some hold, markAt_of_lookup hold]

/-! Local changes. -/

theorem writeAt_curGen (inode offset : Nat) (data : List UInt8) (now : Nat) (c : NodeCache) :
    (c.writeAt inode offset data now).curGen = c.curGen + 1 :=
  (sheds_evictIfNeededLocked 0 _).curGen

/-- The entry a write starts from. -/
def writeBase (inode now : Nat) (c : NodeCache) : CachedEntry :=
  (c.entries.lookup inode).getD { size := 0, lastRead := now }

/-- The entry that it leaves. -/
abbrev written (inode offset : Nat) (data : List UInt8) (now : Nat) (c : NodeCache) : CachedEntry :=
  (c.writeBase inode now).write offset data (c.curGen + 1) now

theorem lookup_writeAt (inode offset : Nat) (data : List UInt8) (now : Nat) (c : NodeCache) (inode' : Nat) :
    Kept (if inode' = inode then some (c.written inode offset data now) else c.entries.lookup inode')
      ((c.writeAt inode offset data now).entries.lookup inode') := by
  have h := (sheds_evictIfNeededLocked 0 (({ c with curGen := c.curGen + 1 } : NodeCache).store inode
    (c.writeBase inode now) (c.written inode offset data now))).lookup inode'
  rwa [lookup_store] at h

section

variable (inode offset : Nat) (hdata : 0 < data.length) (now : Nat) (c : NodeCache)
  (hcs : (c.writeBase inode now).chunkSizeOf = defaultChunkSize)
include hdata hcs

/-- The written entry is dirty, so the eviction that follows leaves it. -/
theorem lookup_writeAt_self :
    (c.writeAt inode offset data now).entries.lookup inode = some (c.written inode offset data now) := by
  have hkept := c.lookup_writeAt inode offset data now inode
  rw [if_pos rfl] at hkept
  have hmark : (c.written inode offset data now).dirtyChunks.lookup (offset / defaultChunkSize) = some (c.curGen + 1) := by
    obtain ⟨hp, hmod⟩ := div_mul_add_mod defaultChunkSize_pos offset
    rw [lookup_write_marks, hcs, if_pos ((mem_chunkRange defaultChunkSize_pos (by omega)).mpr (by omega))]
  exact hkept.of_dirty rfl (.of_mark hmark)

theorem markAt_writeAt (n i : Nat) : (c.writeAt inode offset data now).markAt n i =
      if n = inode ∧ i ∈ touched offset data then some (c.curGen + 1) else c.markAt n i := by
  by_cases hn : n = inode
  · subst hn
    rw [markAt_of_lookup (c.lookup_writeAt_self n offset hdata now hcs), lookup_write_marks, hcs]
    simp only [true_and]
    split
    · rfl
    · unfold writeBase markAt
      cases c.entries.lookup n <;> rfl
  · have hkept := c.lookup_writeAt inode offset data now n
    rw [if_neg hn] at hkept
    rw [if_neg (fun h => hn h.1)]
    exact markAt_of_kept hkept i

theorem chunkAt_writeAt {n i : Nat} (hm : c.markAt n i = some gen) (hout : ¬ (n = inode ∧ i ∈ touched offset data)) :
    (c.writeAt inode offset data now).chunkAt n i = c.chunkAt n i := by
  obtain ⟨e, hl, hmark⟩ := bind_eq_some_iff.mp hm
  by_cases hn : n = inode
  · subst hn
    have hi : i ∉ touched offset data := fun hi => hout ⟨rfl, hi⟩
    rw [chunkAt_of_lookup (c.lookup_writeAt_self n offset hdata now hcs), lookup_write_chunks, hcs, if_neg hi,
      chunkAt_of_lookup hl, writeBase, hl]
    rfl
  · have hkept := c.lookup_writeAt inode offset data now n
    rw [if_neg hn] at hkept
    rw [chunkAt_of_lookup (hkept.of_dirty hl (.of_mark hmark)), chunkAt_of_lookup hl]

end

theorem lookup_truncate (inode size now : Nat) (c : NodeCache) (inode' : Nat) :
    (c.truncate inode size now).1.entries.lookup inode' =
      if inode' = inode then
        some (match c.entries.lookup inode with
          | none => { size, lastRead := now, generation := c.curGen + 1, sizeGen := c.curGen + 1 }
          | some e => e.truncate size (c.curGen + 1) now)
      else c.entries.lookup inode' := by
  unfold truncate
  simp only
  cases c.entries.lookup inode with
  | none => exact lookup_insert _ _ _ _
  | some e => exact lookup_store _ _ _ _ _

theorem truncate_curGen (inode size now : Nat) (c : NodeCache) : (c.truncate inode size now).1.curGen = c.curGen + 1 := by
  unfold truncate
  simp only
  split <;> rfl

theorem lookup_punchHole (inode offset length : Nat) (keepSize : Bool) (now : Nat) (c : NodeCache) (inode' : Nat) :
    (c.punchHole inode offset length keepSize now).1.entries.lookup inode' =
      if inode' = inode then
        (c.entries.lookup inode').map fun e => e.punchHole offset length keepSize (c.curGen + 1) now
      else c.entries.lookup inode' :=
  lookup_modifyEntry _ _ _ _

theorem punchHole_curGen (inode offset length : Nat) (keepSize : Bool) (now : Nat) (c : NodeCache) :
    (c.punchHole inode offset length keepSize now).1.curGen = c.curGen + 1 :=
  modifyEntry_curGen _ _ _

theorem markAt_markChunkClean (inode chunk gen : Nat) (c : NodeCache) (n i : Nat) :
    (c.markChunkClean inode chunk gen).markAt n i =
      if n = inode ∧ i = chunk ∧ ∃ dirtyGen ≤ gen, c.markAt n i = some dirtyGen then none else c.markAt n i := by
  unfold markChunkClean markAt
  rw [lookup_modifyEntry]
  by_cases hn : n = inode
  · rw [if_pos hn]
    cases c.entries.lookup n with
    | none => simp
    | some e =>
      simp only [map_some, bind_some, lookup_markChunkClean, hn, true_and]
  · rw [if_neg hn, if_neg fun h => hn h.1]

theorem chunkAt_markChunkClean (inode chunk gen : Nat) (c : NodeCache) (n i : Nat) :
    (c.markChunkClean inode chunk gen).chunkAt n i = c.chunkAt n i := by
  unfold markChunkClean chunkAt
  rw [lookup_modifyEntry]
  split
  · cases c.entries.lookup n with
    | none => rfl
    | some e => simp only [map_some, bind_some, markChunkClean_chunks]
  · rfl

/-! Copies. -/

theorem of_getDirtyChunks {c : NodeCache} {d : DirtyChunks} (h : c.getDirtyChunks inode = some d) :
    ∃ e, c.entries.lookup inode = some e ∧ e.getDirtyChunks = d := by
  unfold getDirtyChunks at h
  split at h
  · cases h
  · next e hl =>
    split at h <;> cases h
    exact ⟨e, hl, rfl⟩

end NodeCache

end InClusterStorage.Node
