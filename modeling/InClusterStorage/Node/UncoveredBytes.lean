import InClusterStorage.Node.WriteTasks

/- Concurrent writes and the bytes that none of them covers.

   Every copy of a chunk, wherever it is (in the cache, in a reply that is under way, in
   what a sync is about to send, at the controller), has the initial value of these bytes;
   only `WriteAt` builds new copies. Where the buffer of a chunk it touches is missing or
   too short, it fills it up with zeros. The file must have zeros there (`FillsZeros`), and
   this is exactly what is needed (`uncovered_bytes_kept_iff`): `Write` fetches a chunk
   before it changes a part of it, but the reply may come too late for the cache, and the
   chunk may be gone again when `WriteAt` starts. -/
namespace InClusterStorage.Node

open Bytes Runs Table NodeCache List Option DirtyChunks
open Controller (chunkRange mem_chunkRange div_mul_add_mod div_eq)

section

variable (initial : Nat → List UInt8) (covered : List Extent)

/-- A copy of a chunk has the initial value of the bytes that are not covered. -/
structure Holds (inode i : Nat) (data : List UInt8) : Prop where
  length : data.length ≤ defaultChunkSize
  bytes : ∀ q, q < data.length → ¬ Covered covered inode (i * defaultChunkSize + q) →
    byteAt data q = byteAt (initial inode) (i * defaultChunkSize + q)

/-- So does the file at the controller. -/
def FileHolds (inode : Nat) (file : List UInt8) : Prop :=
  ∀ p, ¬ Covered covered inode p → byteAt file p = byteAt (initial inode) p

structure EntryHolds (inode : Nat) (e : CachedEntry) : Prop where
  chunkSize : e.chunkSize = defaultChunkSize
  sizeGen : e.sizeGen = 0
  chunks : ∀ i chunk, e.chunks.lookup i = some chunk → Holds initial covered inode i chunk

def CacheHolds (c : NodeCache) : Prop :=
  ∀ inode e, c.entries.lookup inode = some e → EntryHolds initial covered inode e

/-- The copy of the dirty chunks that a sync sends. -/
structure CopyHolds (inode : Nat) (d : DirtyChunks) : Prop where
  chunkSize : d.chunkSize = defaultChunkSize
  chunks : ∀ i chunk, d.chunks.lookup i = some chunk → Holds initial covered inode i chunk

def SyncPhase.Holds : SyncPhase → Prop
  | .sending inode d _ runs _ _ => CopyHolds initial covered inode d ∧ ∀ run ∈ runs, d.Contiguous run
  | _ => True

def FetchPhase.Holds (inode i : Nat) : FetchPhase → Prop
  | .reply _ _ data => Node.Holds initial covered inode i data
  | _ => True

def Task.Holds : Task → Prop
  | .write inode _ _ (.fetch i phase _) => phase.Holds initial covered inode i
  | .write _ _ _ (.sync phase) => phase.Holds initial covered
  | .write _ _ _ _ => True
  | .read inode i phase => phase.Holds initial covered inode i
  | .sync phase => phase.Holds initial covered

/-- The bytes at rest: in the files and in the cache. -/
structure DataHolds (s : TasksState) : Prop where
  files : ∀ inode, FileHolds initial covered inode (s.files inode)
  cache : CacheHolds initial covered s.cache

end

structure TasksInv (initial : Nat → List UInt8) (s : TasksState) : Prop where
  data : DataHolds initial s.covered s
  tasks : ∀ id task, s.tasks.lookup id = some task → task.Holds initial s.covered

variable {initial : Nat → List UInt8} {covered : List Extent} {inode i : Nat}

/-! Copies. -/

namespace Holds

variable {data : List UInt8} (h : Holds initial covered inode i data)
include h

theorem take (n : Nat) : Holds initial covered inode i (data.take n) where
  length := by
    rw [length_take]
    have := h.length
    omega
  bytes q hq hfree := by
    rw [length_take] at hq
    rw [byteAt_take, if_pos (by omega)]
    exact h.bytes q (by omega) hfree

/-- The more is covered, the less there is to hold. -/
theorem cover (x : Extent) : Holds initial (x :: covered) inode i data :=
  ⟨h.length, fun q hq hfree => h.bytes q hq fun ⟨y, hy, hp⟩ => hfree ⟨y, mem_cons_of_mem x hy, hp⟩⟩

end Holds

section

variable {file : List UInt8} (h : FileHolds initial covered inode file)
include h

theorem FileHolds.readFile (i : Nat) :
    Holds initial covered inode i (FileConfig.readFile file (i * defaultChunkSize) defaultChunkSize) where
  length := by
    rw [FileConfig.readFile, length_slice]
    omega
  bytes q hq hfree := by
    rw [FileConfig.readFile, length_slice] at hq
    rw [FileConfig.readFile, byteAt_slice, if_pos (by omega)]
    exact h _ hfree

theorem FileHolds.sendChunk {d : DirtyChunks}
    (hd : CopyHolds initial covered inode d) (i : Nat) : FileHolds initial covered inode (d.sendChunk file i) := by
  have hdata : Holds initial covered inode i (d.data i) := by
    unfold data
    cases hc : d.chunks.lookup i with
    | none =>
      rw [getD_none, take_nil]
      exact ⟨Nat.zero_le _, fun q hq => absurd hq (Nat.not_lt_zero q)⟩
    | some chunk => exact (hd.chunks i chunk hc).take _
  intro p hfree
  rw [DirtyChunks.sendChunk, hd.chunkSize, byteAt_splice]
  split
  case isFalse => exact h p hfree
  case isTrue hin =>
    have hp : i * defaultChunkSize + (p - i * defaultChunkSize) = p := by omega
    have hbyte := hdata.bytes (p - i * defaultChunkSize) (by omega)
    rw [hp] at hbyte
    exact hbyte hfree

theorem FileHolds.sendRun {d : DirtyChunks} {run : List Nat}
    (hd : CopyHolds initial covered inode d) (hrun : d.Contiguous run) :
    FileHolds initial covered inode (d.sendRun file run) := by
  rw [sendRun_eq hrun]
  clear hrun
  induction run generalizing file with
  | nil => exact h
  | cons i run ih => exact ih (h.sendChunk hd i)

end

variable {e : CachedEntry} {offset : Nat} {data : List UInt8} {env : TaskEnv} {s s' : TasksState}

section

variable (h : EntryHolds initial covered inode e)
include h

theorem EntryHolds.chunkSizeOf : e.chunkSizeOf = defaultChunkSize := by
  rw [CachedEntry.chunkSizeOf, h.chunkSize, if_neg defaultChunkSize_ne_zero]

theorem EntryHolds.length_chunk (i : Nat) : ((e.chunks.lookup i).getD []).length ≤ defaultChunkSize := by
  cases hc : e.chunks.lookup i with
  | none => exact Nat.zero_le _
  | some chunk => exact (h.chunks i chunk hc).length

theorem EntryHolds.getDirtyChunks : CopyHolds initial covered inode e.getDirtyChunks where
  chunkSize := h.chunkSizeOf
  chunks i chunk hc := by
    simp only [CachedEntry.getDirtyChunks, lookup_select] at hc
    split at hc
    · exact h.chunks i chunk hc
    · cases hc

end

/-! The cache. -/

namespace CacheHolds

variable {c : NodeCache} (h : CacheHolds initial covered c)
include h

theorem of_sheds {c' : NodeCache} (hsheds : Sheds c c') : CacheHolds initial covered c' :=
  fun inode e hl => h inode e ((hsheds.lookup inode).of_some hl)

theorem modifyEntry {f : CachedEntry → CachedEntry} (inode : Nat)
    (hf : ∀ e, (f e).chunkSize = e.chunkSize ∧ (f e).sizeGen = e.sizeGen ∧ (f e).chunks = e.chunks) :
    CacheHolds initial covered (c.modifyEntry inode f) := by
  intro inode' e hl
  rw [lookup_modifyEntry] at hl
  split at hl
  · obtain ⟨old, hold, rfl⟩ := map_eq_some_iff.mp hl
    obtain ⟨hcs, hsize, hchunks⟩ := hf old
    have hentry := h inode' old hold
    exact ⟨hcs.trans hentry.chunkSize, hsize.trans hentry.sizeGen, hchunks ▸ hentry.chunks⟩
  · exact h inode' e hl

theorem markChunkClean (inode i gen : Nat) : CacheHolds initial covered (c.markChunkClean inode i gen) :=
  h.modifyEntry inode fun e => ⟨(e.markChunkClean_sizes i gen).2.1, (e.markChunkClean_sizes i gen).2.2,
    e.markChunkClean_chunks i gen⟩

theorem touch (inode now : Nat) : CacheHolds initial covered (c.touch inode now) := by
  intro inode' e hl
  rw [lookup_touch] at hl
  split at hl
  · obtain ⟨old, hold, rfl⟩ := map_eq_some_iff.mp hl
    exact { h inode' old hold with }
  · exact h inode' e hl

theorem getChunk (inode i now : Nat) : CacheHolds initial covered (c.getChunk inode i now).1 := by
  unfold NodeCache.getChunk
  split
  · exact h
  · exact h.touch inode now

theorem putChunk {inode i : Nat} {data : List UInt8} (hdata : Holds initial covered inode i data)
    (totalSize gen now : Nat) :
    CacheHolds initial covered (c.putChunk inode i defaultChunkSize totalSize data gen now) := by
  intro inode' e hl
  obtain hkept | ⟨rfl, -, -, hnew⟩ := c.lookup_putChunk inode i defaultChunkSize_ne_zero totalSize data gen now inode'
  · exact h inode' e (hkept.of_some hl)
  rw [hnew, some.injEq] at hl
  subst hl
  have hbase : EntryHolds initial covered inode' (c.entryFor inode' defaultChunkSize totalSize gen now) := by
    cases hold : c.entries.lookup inode' with
    | none =>
      rw [entryFor_of_none hold]
      exact ⟨rfl, rfl, nofun⟩
    | some e =>
      rw [entryFor_of_some hold]
      exact h inode' e hold
  refine ⟨rfl, hbase.sizeGen, fun j chunk hc => ?_⟩
  simp only [CachedEntry.fill, lookup_insert] at hc
  split at hc
  · next heq =>
    subst heq
    rw [some.injEq] at hc
    subst hc
    unfold CachedEntry.taken
    split
    · exact hdata.take _
    · exact hdata
  · exact hbase.chunks j chunk hc

end CacheHolds

/-! `WriteAt`. -/

/-- The buffers of the chunks that a write touches lack bytes only where the file has zeros,
as far as they are filled up. -/
def FillsZeros (initial : Nat → List UInt8) (covered : List Extent) (inode offset stop : Nat) (c : NodeCache) : Prop :=
  ∀ p, p / defaultChunkSize ∈ chunkRange defaultChunkSize offset stop → p < max stop ((c.getSize inode).getD 0) →
    ¬ Covered (⟨inode, offset, stop⟩ :: covered) inode p →
    ((c.chunkAt inode (p / defaultChunkSize)).getD []).length ≤ p % defaultChunkSize → byteAt (initial inode) p = 0

theorem lt_of_mem_chunkRange {cs stop i : Nat} (hcs : 0 < cs) (hi : i ∈ chunkRange cs offset stop) :
    offset < i * cs + cs := by
  have hle : offset / cs ≤ i := (mem_range'_1.mp hi).1
  rw [← Nat.succ_mul, ← Nat.div_lt_iff_lt_mul hcs]
  omega

theorem CacheHolds.writeBase {c : NodeCache} (h : CacheHolds initial covered c) (inode now : Nat) :
    EntryHolds initial covered inode (c.writeBase inode now) ∧
      (∀ i, (c.writeBase inode now).chunks.lookup i = c.chunkAt inode i) ∧
      (c.writeBase inode now).size = (c.getSize inode).getD 0 := by
  unfold NodeCache.writeBase chunkAt getSize
  cases hl : c.entries.lookup inode with
  | none => exact ⟨⟨rfl, rfl, nofun⟩, fun _ => rfl, rfl⟩
  | some e => exact ⟨h inode e hl, fun _ => rfl, rfl⟩

theorem Holds.written {newSize : Nat} {chunk : List UInt8} (h : Holds initial covered inode i chunk)
    (hi : offset < i * defaultChunkSize + defaultChunkSize) (hsize : offset + data.length ≤ newSize)
    (hzero : ∀ q, q < defaultChunkSize → chunk.length ≤ q → i * defaultChunkSize + q < newSize →
      ¬ Covered (⟨inode, offset, offset + data.length⟩ :: covered) inode (i * defaultChunkSize + q) →
      byteAt (initial inode) (i * defaultChunkSize + q) = 0) :
    Holds initial (⟨inode, offset, offset + data.length⟩ :: covered) inode i
      (CachedEntry.writtenChunk defaultChunkSize newSize offset data i chunk) := by
  obtain ⟨hlen, hbytes⟩ := CachedEntry.writtenChunk_spec chunk hi hsize
  have hle := h.length
  refine ⟨by rw [hlen]; omega, fun q hq hfree => ?_⟩
  have hcs : q < defaultChunkSize := by omega
  have hout : ¬ (offset ≤ i * defaultChunkSize + q ∧ i * defaultChunkSize + q < offset + data.length) :=
    fun hin => hfree ⟨_, mem_cons_self, rfl, hin⟩
  rw [hbytes q hcs, if_neg hout]
  by_cases hold : q < chunk.length
  · exact (h.cover _).bytes q hold hfree
  · rw [byteAt_of_length_le (by omega), hzero q hcs (by omega) (by omega) hfree]

theorem CacheHolds.writeAt {c : NodeCache} (h : CacheHolds initial covered c)
    (hzero : FillsZeros initial covered inode offset (offset + data.length) c) (now : Nat) :
    CacheHolds initial (⟨inode, offset, offset + data.length⟩ :: covered) (c.writeAt inode offset data now) := by
  intro inode' e hl
  have hl := (c.lookup_writeAt inode offset data now inode').of_some hl
  split at hl
  case isFalse =>
    have hentry := h inode' e hl
    exact ⟨hentry.chunkSize, hentry.sizeGen, fun i chunk hc => (hentry.chunks i chunk hc).cover _⟩
  case isTrue heq =>
    subst heq
    rw [some.injEq] at hl
    subst hl
    obtain ⟨hbase, hchunks, hsize⟩ := h.writeBase inode' now
    refine ⟨hbase.chunkSizeOf, hbase.sizeGen, fun i chunk hc => ?_⟩
    rw [CachedEntry.lookup_write_chunks, hbase.chunkSizeOf, hchunks, hsize] at hc
    by_cases hi : i ∈ touched offset data
    · rw [if_pos hi, some.injEq] at hc
      subst hc
      have hold : Holds initial covered inode' i ((c.chunkAt inode' i).getD []) := by
        cases hat : c.chunkAt inode' i with
        | none => exact ⟨Nat.zero_le _, fun q hq => absurd hq (Nat.not_lt_zero q)⟩
        | some chunk => exact hbase.chunks i chunk ((hchunks i).trans hat)
      refine hold.written (lt_of_mem_chunkRange defaultChunkSize_pos hi) (le_max_left _ _) fun q hq hlen hend hfree => ?_
      have hdiv : (i * defaultChunkSize + q) / defaultChunkSize = i := (div_eq defaultChunkSize_pos).mpr (by omega)
      have hmod : (i * defaultChunkSize + q) % defaultChunkSize = q := by
        rw [mul_comm, Nat.mul_add_mod, Nat.mod_eq_of_lt hq]
      exact hzero _ (by rw [hdiv]; exact hi) hend hfree (by rw [hdiv, hmod]; exact hlen)
    · rw [if_neg hi] at hc
      exact (hbase.chunks i chunk ((hchunks i).trans hc)).cover _

/-- A sync after the write sends the zeros that it filled in. -/
theorem CachedEntry.byteAt_sent {cs p : Nat} (hcs : 0 < cs)
    (hchunkSize : e.chunkSizeOf = cs) (hlength : ∀ i, ((e.chunks.lookup i).getD []).length ≤ cs) (gen now : Nat)
    (hp : p / cs ∈ chunkRange cs offset (offset + data.length)) (hend : p < max (offset + data.length) e.size)
    (hout : ¬ (offset ≤ p ∧ p < offset + data.length)) (hshort : ((e.chunks.lookup (p / cs)).getD []).length ≤ p % cs)
    (file : List UInt8) :
    let d := (e.write offset data gen now).getDirtyChunks
    byteAt (d.runs.foldl d.sendRun file) p = 0 := by
  intro d
  obtain ⟨hdiv, hmod⟩ := div_mul_add_mod hcs p
  have hchunks := fun i => e.lookup_write_chunks offset data gen now i
  have hmarks := fun i => e.lookup_write_marks offset data gen now i
  rw [hchunkSize] at hchunks hmarks
  have hdcs : d.chunkSize = cs := by
    show (if e.chunkSizeOf = 0 then defaultChunkSize else e.chunkSizeOf) = cs
    rw [hchunkSize, if_neg (ne_of_gt hcs)]
  -- no chunk is longer than it may be
  have hlens (i) : (d.data i).length ≤ cs := by
    suffices hchunk : ((d.chunks.lookup i).getD []).length ≤ cs by
      rw [DirtyChunks.data, length_take]
      omega
    simp only [d, CachedEntry.getDirtyChunks, lookup_select, hchunks]
    split
    · split
      · next hi =>
        rw [getD_some, (writtenChunk_spec _ (lt_of_mem_chunkRange hcs hi) (le_max_left (offset + data.length) e.size)).1]
        have := hlength i
        omega
      · exact hlength i
    · exact Nat.zero_le _
  obtain ⟨hlen, hbytes⟩ := writtenChunk_spec ((e.chunks.lookup (p / cs)).getD [])
    (lt_of_mem_chunkRange hcs hp) (le_max_left (offset + data.length) e.size)
  generalize hw : writtenChunk cs _ offset data (p / cs) _ = w at hlen hbytes
  have hlookup : d.chunks.lookup (p / cs) = some w := by
    simp only [d, CachedEntry.getDirtyChunks, lookup_select, hchunks, hmarks, if_pos hp, isSome_some, if_true, hw]
  have hdata : d.data (p / cs) = w.take (max (offset + data.length) e.size - p / cs * cs) := by
    rw [DirtyChunks.data, hlookup, hdcs]
    rfl
  have hsent : p / cs ∈ d.indices ∧ p % cs < (d.data (p / cs)).length := by
    refine ⟨mem_indices.mpr ⟨by rw [hlookup]; rfl, ?_⟩, ?_⟩
    · rw [hdcs]
      show _ < max (offset + data.length) e.size
      omega
    · have hin : p % cs < max (offset + data.length) e.size - p / cs * cs := by omega
      rw [hdata, length_take, hlen]
      exact Nat.lt_min.mpr ⟨hin, lt_of_lt_of_le (Nat.lt_min.mpr ⟨hin, hmod⟩) (le_max_right _ _)⟩
  rw [foldl_sendRun, byteAt_foldl_sendChunk hcs hdcs hlens indices_nodup,
    if_pos hsent, hdata, byteAt_take]
  split
  · rw [hbytes _ hmod, hdiv, if_neg hout, byteAt_of_length_le hshort]
  · rfl

/-! One section of a task. -/

/-- The outcome of one section: the data at rest and what is left of the task are right,
for what is covered then. -/
structure SectionOk {α : Type} (initial : Nat → List UInt8) (holds : List Extent → α → Prop) (s s' : TasksState)
    (next : Option α) : Prop where
  data : DataHolds initial s'.covered s'
  covered : s'.covered = s.covered ∨ ∃ x, s'.covered = x :: s.covered
  tasks : s'.tasks = s.tasks
  next : ∀ a ∈ next, holds s'.covered a

namespace SectionOk

variable {α β : Type} {holds : List Extent → α → Prop} {a : α}

theorem go (hdata : DataHolds initial s'.covered s') (h : holds s'.covered a)
    (hcovered : s'.covered = s.covered := by rfl) (htasks : s'.tasks = s.tasks := by rfl) :
    SectionOk initial holds s s' (some a) :=
  ⟨hdata, .inl hcovered, htasks, fun _ ha => some.inj ha ▸ h⟩

theorem stop (hdata : DataHolds initial s'.covered s') (hcovered : s'.covered = s.covered := by rfl)
    (htasks : s'.tasks = s.tasks := by rfl) : SectionOk initial holds s s' none :=
  ⟨hdata, .inl hcovered, htasks, nofun⟩

variable {holds' : List Extent → β → Prop} {next : Option α} {b : β} (h : SectionOk initial holds s s' next)
include h

/-- The section is one of a larger task, which goes on. -/
theorem andThen (hb : holds' s'.covered b) : SectionOk initial holds' s s' (some b) :=
  ⟨h.data, h.covered, h.tasks, fun _ ha => some.inj ha ▸ hb⟩

theorem ends : SectionOk initial holds' s s' none := ⟨h.data, h.covered, h.tasks, nofun⟩

end SectionOk

section

variable (hs : DataHolds initial s.covered s)
include hs

theorem SyncPhase.run_holds {diskCache : Bool} {phase : SyncPhase}
    {next : Option SyncPhase} (hphase : phase.Holds initial s.covered)
    (hrun : phase.run diskCache env s = some (s', next)) : SectionOk initial (SyncPhase.Holds initial) s s' next := by
  cases phase with
  | entries =>
    obtain ⟨-, ⟨⟩⟩ := ite_none_right_eq_some.mp hrun
    split
    · exact .stop hs
    · exact .go hs trivial
  | inodes left marks =>
    cases left with
    | nil =>
      cases hrun
      split
      · exact .stop hs
      · exact .go hs trivial
    | cons inode left =>
      obtain ⟨-, hrun⟩ := ite_none_left_eq_some.mp hrun
      split at hrun <;> cases hrun
      · exact .go hs trivial
      rename_i d hd
      obtain ⟨e, hl, rfl⟩ := of_getDirtyChunks hd
      exact .go ⟨hs.files, hs.cache⟩ ⟨(hs.cache inode e hl).getDirtyChunks, fun run hrun => contiguous_of_mem_runs hrun⟩
  | sending inode d beyond runs left marks =>
    cases beyond with
    | cons i beyond =>
      cases hrun
      exact .go ⟨hs.files, hs.cache.markChunkClean _ _ _⟩ hphase
    | nil =>
      cases runs with
      | nil =>
        cases hrun
        exact .go ⟨hs.files, hs.cache⟩ trivial
      | cons run runs =>
        cases hrun
        refine .go ⟨fun inode' => ?_, hs.cache⟩ ⟨hphase.1, fun r hr => hphase.2 r (mem_cons_of_mem _ hr)⟩
        show FileHolds initial s.covered inode' (Function.update s.files inode _ inode')
        by_cases heq : inode' = inode
        · subst heq
          rw [Function.update_self]
          exact (hs.files inode').sendRun hphase.1 (hphase.2 run mem_cons_self)
        · rw [Function.update_of_ne heq]
          exact hs.files inode'
  | marking marks =>
    cases marks with
    | nil =>
      cases hrun
      split
      · exact .go hs trivial
      · exact .stop hs
    | cons m marks =>
      cases hrun
      exact .go ⟨hs.files, hs.cache.markChunkClean _ _ _⟩ trivial
  | dropping =>
    cases hrun
    exact .stop ⟨hs.files, hs.cache.of_sheds (sheds_invalidateAllClean _)⟩

theorem FetchPhase.run_holds {phase : FetchPhase} {next : Option FetchPhase} {keeps : List UInt8 → Nat → Bool}
    (hphase : phase.Holds initial s.covered inode i) (hrun : phase.run inode i keeps env s = (s', next)) :
    SectionOk initial (FetchPhase.Holds initial · inode i) s s' next := by
  cases phase with
  | look =>
    have hcache := hs.cache.getChunk inode i env.now
    rw [run] at hrun
    generalize s.cache.getChunk inode i env.now = got at hcache hrun
    obtain ⟨cache, chunk⟩ := got
    cases chunk with
    | none =>
      cases hrun
      exact .go ⟨hs.files, hcache⟩ trivial
    | some chunk =>
      cases hrun
      exact .stop ⟨hs.files, hcache⟩
  | generation =>
    cases hrun
    exact .go hs trivial
  | ask readGen =>
    cases hrun
    exact .go hs ((hs.files inode).readFile i)
  | reply readGen totalSize data =>
    cases hrun
    split
    · exact .stop ⟨hs.files, hs.cache.putChunk hphase _ _ _⟩
    · exact .stop hs

omit hs in
theorem SyncPhase.Holds.cover {phase : SyncPhase} (h : phase.Holds initial covered) (x : Extent) :
    phase.Holds initial (x :: covered) := by
  cases phase with
  | sending inode d beyond runs left marks =>
    exact ⟨⟨h.1.chunkSize, fun i chunk hc => (h.1.chunks i chunk hc).cover x⟩, h.2⟩
  | entries | inodes | marking | dropping => trivial

omit hs in
theorem FetchPhase.Holds.cover {phase : FetchPhase} (h : phase.Holds initial covered inode i) (x : Extent) :
    phase.Holds initial (x :: covered) inode i := by
  cases phase with
  | reply readGen totalSize data => exact Node.Holds.cover h x
  | look | generation | ask => trivial

omit hs in
theorem Task.Holds.cover {task : Task} (h : task.Holds initial covered) (x : Extent) :
    task.Holds initial (x :: covered) := by
  cases task with
  | write inode offset data phase =>
    cases phase with
    | fetch i phase left => exact FetchPhase.Holds.cover h x
    | sync phase => exact SyncPhase.Holds.cover h x
    | size | attr | chunks | ready => trivial
  | read inode i phase => exact FetchPhase.Holds.cover h x
  | sync phase => exact SyncPhase.Holds.cover h x

omit hs in
theorem holds_clamp {inode : Nat} {clientSize : Nat} :
    ∀ task ∈ WritePhase.clamp inode offset data clientSize, task.Holds initial covered := by
  intro task htask
  obtain ⟨-, ⟨⟩⟩ := ite_none_left_eq_some.mp htask
  trivial

/-- What the next section of a task needs. -/
def Task.Fills (initial : Nat → List UInt8) (s : TasksState) : Task → Prop
  | .write inode offset data .ready => FillsZeros initial s.covered inode offset (offset + data.length) s.cache
  | _ => True

theorem WritePhase.run_holds {diskCache : Bool} {phase : WritePhase} {next : Option Task}
    (htask : (Task.write inode offset data phase).Holds initial s.covered)
    (hfills : (Task.write inode offset data phase).Fills initial s)
    (hrun : phase.run diskCache inode offset data env s = some (s', next)) :
    SectionOk initial (Task.Holds initial) s s' next := by
  cases phase with
  | size =>
    rw [run] at hrun
    split at hrun <;> cases hrun
    · exact ⟨hs, .inl rfl, rfl, holds_clamp⟩
    · exact .go hs trivial
  | attr =>
    cases hrun
    exact ⟨hs, .inl rfl, rfl, holds_clamp⟩
  | chunks left =>
    cases left with
    | nil =>
      cases hrun
      refine .go hs ?_
      split <;> trivial
    | cons i left =>
      rw [run] at hrun
      split at hrun <;> cases hrun <;> exact .go hs trivial
  | fetch i phase left =>
    rw [run] at hrun
    split at hrun
    · next s₁ phase₁ hfetch =>
      have hsection := FetchPhase.run_holds hs htask hfetch
      cases hrun
      exact hsection.andThen (hsection.next phase₁ rfl)
    · next s₁ hfetch =>
      cases hrun
      exact (FetchPhase.run_holds hs htask hfetch).andThen trivial
  | sync phase =>
    rw [run] at hrun
    split at hrun
    · cases hrun
    · next s₁ phase₁ hsync =>
      have hsection := SyncPhase.run_holds hs htask hsync
      cases hrun
      exact hsection.andThen (hsection.next phase₁ rfl)
    · next s₁ hsync =>
      cases hrun
      exact (SyncPhase.run_holds hs htask hsync).andThen trivial
  | ready =>
    cases hrun
    exact {
      data := ⟨fun inode' p hfree => hs.files inode' p fun ⟨y, hy, hp⟩ => hfree ⟨y, mem_cons_of_mem _ hy, hp⟩,
        hs.cache.writeAt hfills env.now⟩
      covered := .inr ⟨_, rfl⟩
      tasks := rfl
      next task htask := by cases htask }

theorem Task.run_holds {diskCache : Bool} {task : Task} {next : Option Task} (htask : task.Holds initial s.covered)
    (hfills : task.Fills initial s)
    (hrun : task.run diskCache env s = some (s', next)) : SectionOk initial (Task.Holds initial) s s' next := by
  cases task with rw [Task.run] at hrun
  | write inode offset data phase => exact WritePhase.run_holds hs htask hfills hrun
  | read inode i phase =>
    split at hrun
    · next s₁ phase₁ hfetch =>
      have hsection := FetchPhase.run_holds hs htask hfetch
      cases hrun
      exact hsection.andThen (hsection.next phase₁ rfl)
    · next s₁ hfetch =>
      cases hrun
      exact (FetchPhase.run_holds hs htask hfetch).ends
  | sync phase =>
    split at hrun
    · cases hrun
    · next s₁ next₁ hsync =>
      have hsection := SyncPhase.run_holds hs htask hsync
      cases hrun
      cases next₁ with
      | none => exact hsection.ends
      | some phase₁ => exact hsection.andThen (hsection.next phase₁ rfl)

end

/-! Runs. -/

/-- What an event needs for the bytes outside the writes to stay. -/
def TaskEvent.Fills (initial : Nat → List UInt8) (s : TasksState) : TaskEvent → Prop
  | .run id _ => ∀ task ∈ s.tasks.lookup id, task.Fills initial s
  | _ => True

namespace TasksInv

variable {s s' : TasksState}

theorem start (maxBytes : Int) (initial : Nat → List UInt8) : TasksInv initial (.start maxBytes initial) where
  data := ⟨fun _ _ _ => rfl, nofun⟩
  tasks _ _ hl := by cases hl

section

variable (h : TasksInv initial s)
include h

theorem begin {id : Nat} {task : Task} (hs : s.begin id task = some s')
    (htask : task.Holds initial s.covered) : TasksInv initial s' := by
  obtain ⟨-, ⟨⟩⟩ := ite_none_left_eq_some.mp hs
  exact ⟨⟨h.data.files, h.data.cache⟩, forall_insert htask h.tasks⟩

theorem step {diskCache : Bool} {event : TaskEvent} (hfills : event.Fills initial s)
    (hs : s.step diskCache initial event = some s') : TasksInv initial s' := by
  cases event with
  | write id writeCache inode offset data =>
    obtain ⟨-, hs⟩ := ite_none_right_eq_some.mp hs
    refine h.begin hs ?_
    cases writeCache <;> trivial
  | read id inode i =>
    have hbegin : s.begin id (.read inode i .look) = some s' := hs
    exact h.begin hbegin trivial
  | sync id =>
    have hbegin : s.begin id (.sync .entries) = some s' := hs
    exact h.begin hbegin trivial
  | touch inode now =>
    cases hs
    exact ⟨⟨h.data.files, h.data.cache.touch inode now⟩, h.tasks⟩
  | run id env =>
    rw [TasksState.step] at hs
    split at hs
    · cases hs
    next task hl =>
    -- the other tasks hold what they held
    have hothers {s₁ next} (hsection : SectionOk initial (Task.Holds initial) s s₁ next) (id' task')
        (hl' : s₁.tasks.lookup id' = some task') : task'.Holds initial s₁.covered := by
      rw [hsection.tasks] at hl'
      have hold := h.tasks id' task' hl'
      obtain heq | ⟨x, hx⟩ := hsection.covered
      · exact heq ▸ hold
      · exact hx ▸ hold.cover x
    split at hs
    · cases hs
    · next s₁ hrun =>
      have hsection := task.run_holds h.data (h.tasks id task hl) (hfills task hl) hrun
      cases hs
      refine ⟨⟨hsection.data.files, hsection.data.cache⟩, fun id' task' hl' => ?_⟩
      exact hothers hsection id' task' (lookup_of_erase hl')
    · next s₁ task₁ hrun =>
      have hsection := task.run_holds h.data (h.tasks id task hl) (hfills task hl) hrun
      cases hs
      exact ⟨⟨hsection.data.files, hsection.data.cache⟩, forall_insert (hsection.next task₁ rfl) (hothers hsection)⟩

theorem kept : s.UncoveredKept initial := by
  intro inode p hfree
  unfold TasksState.synced
  cases hd : s.cache.getDirtyChunks inode with
  | none => exact h.data.files inode p hfree
  | some d =>
    obtain ⟨e, hl, rfl⟩ := of_getDirtyChunks hd
    have hruns : ∀ run ∈ e.getDirtyChunks.runs, e.getDirtyChunks.Contiguous run :=
      fun _ => contiguous_of_mem_runs
    have hcopy := (h.data.cache inode e hl).getDirtyChunks
    suffices hfold : ∀ file, FileHolds initial s.covered inode file →
        FileHolds initial s.covered inode (e.getDirtyChunks.runs.foldl e.getDirtyChunks.sendRun file) from
      hfold _ (h.data.files inode) p hfree
    generalize e.getDirtyChunks.runs = runs at hruns ⊢
    induction runs with
    | nil => exact fun file hfile => hfile
    | cons run runs ih =>
      exact fun file hfile => ih (fun r hr => hruns r (mem_cons_of_mem _ hr)) _
        (hfile.sendRun hcopy (hruns run mem_cons_self))

/-- Where a write fills in zeros over other bytes, the next sync sends them. -/
theorem not_kept_of_filled {offset now : Nat} {data : List UInt8}
    (hfills : ¬ FillsZeros initial s.covered inode offset (offset + data.length) s.cache) {s' : TasksState}
    (hcache : s'.cache = s.cache.writeAt inode offset data now)
    (hcovered : s'.covered = ⟨inode, offset, offset + data.length⟩ :: s.covered) : ¬ s'.UncoveredKept initial := by
  intro hkept
  apply hfills
  intro p hp hend hfree hshort
  obtain ⟨hbase, hchunks, hsize⟩ := h.data.cache.writeBase inode now
  have hmark := (s.cache.writeBase inode now).lookup_write_marks offset data (s.cache.curGen + 1) now (p / defaultChunkSize)
  rw [hbase.chunkSizeOf, if_pos hp] at hmark
  have hl := s.cache.lookup_writeAt inode offset data now inode
  rw [if_pos rfl] at hl
  have hl := hl.of_dirty rfl (.of_mark hmark)
  have hd : s'.cache.getDirtyChunks inode = some (s.cache.written inode offset data now).getDirtyChunks := by
    rw [hcache, getDirtyChunks, hl]
    exact if_neg (ne_of_gt (length_pos.mpr ⟨_, _, hmark⟩))
  have hout : ¬ (offset ≤ p ∧ p < offset + data.length) := fun hin => hfree ⟨_, mem_cons_self, rfl, hin⟩
  rw [← hkept inode p (hcovered ▸ hfree), TasksState.synced, hd]
  exact CachedEntry.byteAt_sent defaultChunkSize_pos hbase.chunkSizeOf hbase.length_chunk _ _ hp
    (by rw [hsize]; exact hend) hout (by rw [hchunks]; exact hshort) _

end

end TasksInv

/-- In every state of a run a sync leaves the bytes that no write covered, if and only if
every write of it fills in zeros only where the file has them. -/
theorem uncovered_bytes_kept_iff (diskCache : Bool) (maxBytes : Int) (initial : Nat → List UInt8)
    (events : List TaskEvent) :
    Throughout (TasksState.step diskCache initial) (TasksState.UncoveredKept initial) (.start maxBytes initial) events ↔
      Allowed (TasksState.step diskCache initial) (fun s event => event.Fills initial s) (.start maxBytes initial)
        events := by
  refine throughout_iff_allowed_of_breaks (I := TasksInv initial) (fun s event s' h _ hfills hs => ?_)
    (fun s event s' h _ hfills hs => ?_) events (.start maxBytes initial) (TasksInv.start maxBytes initial).kept
  · have hnext := h.step hfills hs
    exact ⟨hnext, hnext.kept⟩
  · cases event with
    | run id env =>
      -- only a write that is ready needs anything
      unfold TaskEvent.Fills at hfills
      push Not at hfills
      obtain ⟨task, hl, hfills⟩ := hfills
      rw [TasksState.step, hl] at hs
      cases task with
      | write inode offset data phase =>
        cases phase with
        | ready =>
          cases hs
          exact h.not_kept_of_filled hfills rfl rfl
        | size | attr | chunks | fetch | sync => exact absurd trivial hfills
      | read | sync => exact absurd trivial hfills
    | write | read | sync | touch => exact absurd trivial hfills

/-- Two writes of byte 1, to two files of two bytes. The first asks for its chunk, the second
one writes, and the reply for the first, now of an older generation, is dropped: its
`WriteAt` fills byte 0 with a zero, and the sync at the end sends it. -/
def overtakenReadIn : List TaskEvent :=
  let one : TaskEvent := .run 0 ⟨0, []⟩
  let two : TaskEvent := .run 1 ⟨0, []⟩
  let three : TaskEvent := .run 2 ⟨0, [2, 3]⟩
  [.write 0 false 2 1 [9], one, one, one, .write 1 false 3 1 [9], two, two, two, two, two, two, two, one, one, one, one,
    .sync 2, three, three, three, three, three, three, three, three, three, three, three]

theorem overtaken_read_in_loses_byte :
    (exec (TasksState.step false fun _ => [7, 8]) (.start 0 fun _ => [7, 8]) overtakenReadIn).map
      (fun s => (s.files 2, s.files 3, s.tasks.entries.length, s.cache.getDirtyEntries, s.covered)) =
    some ([0, 9], [7, 9], 0, [], [⟨2, 1, 2⟩, ⟨3, 1, 2⟩]) := by
  decide +kernel

end InClusterStorage.Node
