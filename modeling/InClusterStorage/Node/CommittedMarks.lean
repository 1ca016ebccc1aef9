import InClusterStorage.Node.StagedSyncs

/- When a chunk is marked clean, and what the controller has committed then.

   As long as the controller that took a chunk runs, it holds the chunk in that generation
   or a newer one: the pushes of an inode exclude each other, so a newer version is never
   replaced by an older one (`TaskOk`). An `Fsync` that succeeds commits what is held. But
   a push remembers the epoch of its last call only, so that its `Fsync` may succeed at a
   controller that took the last run and lost the runs before it. The marks are right all
   along a run if and only if no `Fsync` acknowledges a chunk that was lost
   (`marks_committed_iff`). -/
namespace InClusterStorage.Node

open Bytes Runs Table NodeCache CachedEntry List Option DirtyChunks SyncsState
open Controller (chunkRange mem_chunkRange)

namespace SyncsState

/-- A version of the chunk is staged or committed. -/
def IsVersion (s : SyncsState) (n i : Nat) (v : Version) : Prop := s.staged n i = some v ∨ s.committed n i = some v

/-- The controller holds the chunk in that generation or a newer one. -/
def Holds (s : SyncsState) (m : SentChunk) : Prop := ∃ v, s.IsVersion m.inode m.chunk v ∧ m.gen ≤ v.gen

end SyncsState

/-- The versions at the controller are such that were written, and a dirty chunk is in the
newest one. -/
structure VersionsOk (s : SyncsState) : Prop where
  known : ∀ n i v, s.IsVersion n i v → s.history n i v.gen = some v.data
  marked : ∀ n i v gen, s.IsVersion n i v → s.cache.markAt n i = some gen → v.gen ≤ gen
  ordered : ∀ n i v w, s.committed n i = some v → s.staged n i = some w → v.gen ≤ w.gen

/-- The chunks of an entry end where the file ends. -/
structure EntryFits (e : CachedEntry) : Prop where
  chunkSize : e.chunkSize = defaultChunkSize
  chunks : ∀ i chunk, e.chunks.lookup i = some chunk →
    chunk.length ≤ defaultChunkSize ∧ i * defaultChunkSize + chunk.length ≤ e.size

/-- The cache and the history of its chunks. -/
structure HistoryOk (s : SyncsState) : Prop where
  fresh : ∀ n i gen data, s.history n i gen = some data → gen ≤ s.cache.curGen
  fits : ∀ n e, s.cache.entries.lookup n = some e → EntryFits e
  marks : ∀ n i gen, s.cache.markAt n i = some gen →
    ∃ chunk, s.cache.chunkAt n i = some chunk ∧ s.history n i gen = some chunk

structure DataOk (s : SyncsState) : Prop where
  versions : VersionsOk s
  history : HistoryOk s

/-- What a push has yet to send is not older than what the controller has. -/
def CopyOk (s : SyncsState) (p : Push) : Prop :=
  ∀ i ∈ p.runs.flatten,
    s.history p.inode i ((p.d.gens.lookup i).getD 0) = some (p.d.data i) ∧
      (∀ gen, s.cache.markAt p.inode i = some gen → (p.d.gens.lookup i).getD 0 ≤ gen) ∧
      ∀ v, s.IsVersion p.inode i v → v.gen ≤ (p.d.gens.lookup i).getD 0

/-- What was sent to the controller that runs now is still there. -/
def SentOk (s : SyncsState) (m : SentChunk) : Prop :=
  m.incarnation ≤ s.incarnation ∧ (m.incarnation = s.incarnation → s.Holds m)

def PushFor.Ok (s : SyncsState) : PushFor → Prop
  | .volume _ _ marks => ∀ m ∈ marks, SentOk s m
  | _ => True

structure PushOk (s : SyncsState) (after : PushFor) (p : Push) : Prop where
  copy : CopyOk s p
  sent : ∀ m ∈ p.uncleaned, SentOk s m ∧ m.inode = p.inode
  after : after.Ok s

def TaskOk (s : SyncsState) : PushTask → Prop
  | .volume _ _ marks => ∀ m ∈ marks, SentOk s m
  | .enter after _ => after.Ok s
  | .push after p | .drain after p | .drained after p _ => PushOk s after p
  | .sync _ inode _ marks => ∀ m ∈ marks, SentOk s m ∧ m.inode = inode
  | .entries | .mark _ _ => True

/-- Two tasks do not have the lock of one inode. -/
def LocksOk (tasks : AList fun _ : Nat => PushTask) : Prop :=
  ∀ id id' t t' n, tasks.lookup id = some t → tasks.lookup id' = some t' → t.lock = some n → t'.lock = some n → id = id'

variable {s s' : SyncsState} {t : PushTask} {c : NodeCache} {data : List UInt8} {inode id : Nat} {m : SentChunk}
  {after : PushFor} {next : Option PushTask} {outcome : CallOutcome}

theorem DataOk.with_tasks (h : DataOk s) (tasks : AList fun _ : Nat => PushTask) : DataOk { s with tasks } :=
  ⟨{ h.versions with }, { h.history with }⟩

structure SyncsInv (s : SyncsState) : Prop where
  data : DataOk s
  tasks : ∀ id t, s.tasks.lookup id = some t → TaskOk s t
  locks : LocksOk s.tasks

/-! What a step leaves to the other tasks. -/

/-- From `s` to `s'` versions of the inode `sender` may have been sent, and none of another. -/
structure Moves (sender : Option Nat) (s s' : SyncsState) : Prop where
  history : ∀ n i gen data, s.history n i gen = some data → s'.history n i gen = some data
  marks : ∀ n i gen, s'.cache.markAt n i = some gen → s.cache.markAt n i = some gen ∨ s.cache.curGen < gen
  incarnation : s.incarnation ≤ s'.incarnation
  held : s'.incarnation = s.incarnation → ∀ m, s.Holds m → s'.Holds m
  committed : ∀ m, s.HasCommitted m → s'.HasCommitted m
  versions : ∀ n i v, sender ≠ some n → s'.IsVersion n i v → s.IsVersion n i v

/-- Such a change that keeps the data right. -/
def Keeps (sender : Option Nat) (s s' : SyncsState) : Prop := DataOk s' ∧ Moves sender s s'

namespace Moves

variable {sender : Option Nat} {s s' : SyncsState}

/-- The tasks are others, and of the cache only marks, which go. -/
theorem of_cache (sender : Option Nat) {cache : NodeCache} (tasks : AList fun _ : Nat => PushTask)
    (hmarks : ∀ n i gen, cache.markAt n i = some gen → s.cache.markAt n i = some gen) :
    Moves sender s { s with cache, tasks } where
  history _ _ _ _ h := h
  marks n i gen h := .inl (hmarks n i gen h)
  incarnation := le_rfl
  held _ _ h := h
  committed _ h := h
  versions _ _ _ _ h := h

theorem refl (sender : Option Nat) (s : SyncsState) : Moves sender s s := of_cache sender s.tasks fun _ _ _ h => h

variable (h : Moves sender s s')
include h

theorem sentOk {m : SentChunk} (hm : SentOk s m) : SentOk s' m := by
  have hle := h.incarnation
  refine ⟨le_trans hm.1 hle, fun heq => ?_⟩
  have hsame : s'.incarnation = s.incarnation := by
    have := hm.1
    omega
  exact h.held hsame m (hm.2 (heq.trans hsame))

theorem copyOk {p : Push} (hs : HistoryOk s) (hlock : sender ≠ some p.inode) (hp : CopyOk s p) : CopyOk s' p := by
  intro i hi
  obtain ⟨hknown, hmarks, hversions⟩ := hp i hi
  refine ⟨h.history _ _ _ _ hknown, fun gen hgen => ?_, fun v hv => hversions v (h.versions _ _ _ hlock hv)⟩
  obtain hold | hnew := h.marks _ _ _ hgen
  · exact hmarks gen hold
  · exact le_of_lt (lt_of_le_of_lt (hs.fresh _ _ _ _ hknown) hnew)

theorem afterOk {after : PushFor} (ha : after.Ok s) : after.Ok s' := by
  cases after with
  | volume left lastEpoch marks => exact fun m hm => h.sentOk (ha m hm)
  | flush | fsync | close => trivial

theorem pushOk {after : PushFor} {p : Push} (hs : HistoryOk s) (hlock : sender ≠ some p.inode) (hp : PushOk s after p) :
    PushOk s' after p where
  copy := h.copyOk hs hlock hp.copy
  sent m hm := ⟨h.sentOk (hp.sent m hm).1, (hp.sent m hm).2⟩
  after := h.afterOk hp.after

theorem taskOk {t : PushTask} (hs : HistoryOk s) (hlock : ∀ n, t.lock = some n → sender ≠ some n) (ht : TaskOk s t) :
    TaskOk s' t := by
  cases t with
  | volume left lastEpoch marks => exact fun m hm => h.sentOk (ht m hm)
  | enter after inode => exact h.afterOk ht
  | push after p | drain after p | drained after p marks => exact h.pushOk hs (hlock _ rfl) ht
  | sync after inode epoch marks => exact fun m hm => ⟨h.sentOk (ht m hm).1, (ht m hm).2⟩
  | entries | mark => trivial

end Moves

theorem TaskOk.with_tasks (h : TaskOk s t) (hs : HistoryOk s) (tasks : AList fun _ : Nat => PushTask) :
    TaskOk { s with tasks } t :=
  Moves.taskOk (.of_cache none tasks fun _ _ _ h => h) hs nofun h

/-! Changes of the cache that make no marks. -/

/-- No mark is made, and the chunks that stay marked keep their bytes. -/
structure MarksStay (c c' : NodeCache) : Prop where
  curGen : c'.curGen = c.curGen
  marks : ∀ n i gen, c'.markAt n i = some gen → c.markAt n i = some gen ∧ c'.chunkAt n i = c.chunkAt n i

/-- Every entry of the cache fits. -/
def CacheFits (c : NodeCache) : Prop := ∀ n e, c.entries.lookup n = some e → EntryFits e

theorem DataOk.of_cache (h : DataOk s) {cache : NodeCache} (hstay : MarksStay s.cache cache)
    (hfits : CacheFits cache) : DataOk { s with cache } where
  versions := ⟨h.versions.known, fun n i v gen hv hm => h.versions.marked n i v gen hv (hstay.marks n i gen hm).1,
    h.versions.ordered⟩
  history := {
    fresh n i gen data hd := le_trans (h.history.fresh n i gen data hd) (le_of_eq hstay.curGen.symm)
    fits := hfits
    marks n i gen hm := by
      obtain ⟨hold, hchunk⟩ := hstay.marks n i gen hm
      rw [hchunk]
      exact h.history.marks n i gen hold }

theorem MarksStay.of_sheds {c' : NodeCache} (h : Sheds c c') : MarksStay c c' where
  curGen := h.curGen
  marks n i gen hm := by
    have hold : c.markAt n i = some gen := (markAt_of_kept (h.lookup n) i).symm.trans hm
    refine ⟨hold, ?_⟩
    obtain ⟨e, hl, -⟩ := bind_eq_some_iff.mp hm
    rw [chunkAt_of_lookup hl, chunkAt_of_lookup ((h.lookup n).of_some hl)]

theorem CacheFits.of_sheds {c' : NodeCache} (hc : CacheFits c) (h : Sheds c c') : CacheFits c' :=
  fun n e hl => hc n e ((h.lookup n).of_some hl)

theorem MarksStay.markChunkClean (c : NodeCache) (inode chunk gen : Nat) :
    MarksStay c (c.markChunkClean inode chunk gen) where
  curGen := modifyEntry_curGen _ _ _
  marks n i gen' hm := by
    rw [markAt_markChunkClean] at hm
    split at hm
    · cases hm
    · exact ⟨hm, c.chunkAt_markChunkClean inode chunk gen n i⟩

theorem CacheFits.markChunkClean (hc : CacheFits c) (inode chunk gen : Nat) :
    CacheFits (c.markChunkClean inode chunk gen) := by
  intro n e hl
  rw [NodeCache.markChunkClean, NodeCache.lookup_modifyEntry] at hl
  split at hl
  · obtain ⟨old, hold, rfl⟩ := map_eq_some_iff.mp hl
    obtain ⟨hsize, hcs, -⟩ := old.markChunkClean_sizes chunk gen
    refine ⟨hcs.trans (hc n old hold).chunkSize, fun i data hd => ?_⟩
    rw [markChunkClean_chunks] at hd
    rw [hsize]
    exact (hc n old hold).chunks i data hd
  · exact hc n e hl

theorem MarksStay.putChunk (c : NodeCache) (inode i totalSize : Nat) (data : List UInt8) (gen now : Nat) :
    MarksStay c (c.putChunk inode i defaultChunkSize totalSize data gen now) where
  curGen := putChunk_curGen _ _ _ _ _ _ _ _
  marks n j gen' hm := by
    have hold := (c.markAt_putChunk inode i defaultChunkSize_ne_zero totalSize data gen now n j).symm.trans hm
    refine ⟨hold, ?_⟩
    obtain ⟨e, hl, hmark⟩ := bind_eq_some_iff.mp hold
    rw [chunkAt_of_lookup hl]
    cases c.lookup_putChunk inode i defaultChunkSize_ne_zero totalSize data gen now n with
    | inl hkept => rw [chunkAt_of_lookup (hkept.of_dirty hl (.of_mark hmark))]
    | inr hfilled =>
      obtain ⟨rfl, -, hkeeps, hnew⟩ := hfilled
      rw [entryFor_of_some hl] at hkeeps hnew
      -- the reply is not for a chunk that is dirty
      have hne : j ≠ i := by
        intro heq
        exact hkeeps (.inl (by rw [← heq, hmark]; rfl))
      rw [chunkAt_of_lookup hnew]
      show (e.chunks.insert i _).lookup j = _
      rw [lookup_insert, if_neg hne]

theorem CacheFits.putChunk (hc : CacheFits c) {i totalSize : Nat}
    (hlen : data.length ≤ defaultChunkSize) (hend : i * defaultChunkSize + data.length ≤ totalSize) (gen now : Nat) :
    CacheFits (c.putChunk inode i defaultChunkSize totalSize data gen now) := by
  intro n e hl
  cases c.lookup_putChunk inode i defaultChunkSize_ne_zero totalSize data gen now n with
  | inl hkept => exact hc n e (hkept.of_some hl)
  | inr hfilled =>
    obtain ⟨rfl, -, hkeeps, hnew⟩ := hfilled
    rw [hnew, some.injEq] at hl
    subst hl
    have hbase : EntryFits (c.entryFor n defaultChunkSize totalSize gen now) := by
      cases hold : c.entries.lookup n with
      | none =>
        rw [entryFor_of_none hold]
        exact ⟨rfl, nofun⟩
      | some e =>
        rw [entryFor_of_some hold]
        exact hc n e hold
    generalize c.entryFor n defaultChunkSize totalSize gen now = e at hbase hkeeps
    have hsize : e.size ≤ (e.fill i defaultChunkSize totalSize data now).size ∧
        (¬ e.Dirty → totalSize ≤ (e.fill i defaultChunkSize totalSize data now).size) := by
      simp only [fill]
      split
      · next hgrow => exact ⟨le_of_lt hgrow.2, fun _ => le_rfl⟩
      · next hgrow =>
        refine ⟨le_rfl, fun hclean => ?_⟩
        by_contra hlt
        exact hgrow ⟨hclean, by omega⟩
    refine ⟨rfl, fun j chunk hd => ?_⟩
    simp only [fill, lookup_insert] at hd
    split at hd
    · next heq =>
      subst heq
      rw [some.injEq] at hd
      subst hd
      unfold taken
      split
      · next hdirty =>
        -- the reply is cut to the size, behind which the chunk does not start
        have hstart : ¬ e.size ≤ j * defaultChunkSize := fun hle => hkeeps (.inr ⟨hdirty, hle⟩)
        rw [length_take]
        omega
      · next hclean =>
        have := hsize.2 hclean
        omega
    · obtain ⟨hle, hfit⟩ := hbase.chunks j chunk hd
      exact ⟨hle, le_trans hfit hsize.1⟩

theorem SyncsState.markClean_ok (h : DataOk s) (sender : Option Nat) (inode i gen : Nat) :
    Keeps sender s (s.markClean inode i gen) := by
  have hstay := MarksStay.markChunkClean s.cache inode i gen
  exact ⟨h.of_cache hstay (CacheFits.markChunkClean h.history.fits inode i gen),
    .of_cache sender s.tasks fun n i gen hm => (hstay.marks n i gen hm).1⟩

/-! Writes. -/

theorem CacheFits.writeBase (hc : CacheFits c) (inode now : Nat) : EntryFits (c.writeBase inode now) := by
  unfold NodeCache.writeBase
  cases hl : c.entries.lookup inode with
  | none => exact ⟨rfl, nofun⟩
  | some e => exact hc inode e hl

theorem EntryFits.chunkSizeOf {e : CachedEntry} (h : EntryFits e) : e.chunkSizeOf = defaultChunkSize := by
  rw [CachedEntry.chunkSizeOf, h.chunkSize, if_neg defaultChunkSize_ne_zero]

theorem EntryFits.write {e : CachedEntry} (h : EntryFits e) {offset : Nat} (hdata : 0 < data.length)
    (gen now : Nat) : EntryFits (e.write offset data gen now) := by
  have hlt : offset < offset + data.length := by omega
  refine ⟨h.chunkSizeOf, fun i chunk hc => ?_⟩
  show chunk.length ≤ defaultChunkSize ∧ i * defaultChunkSize + chunk.length ≤ max (offset + data.length) e.size
  rw [lookup_write_chunks, h.chunkSizeOf] at hc
  by_cases hi : i ∈ touched offset data
  · rw [if_pos hi, some.injEq] at hc
    subst hc
    have hin := (mem_chunkRange defaultChunkSize_pos hlt).mp hi
    rw [(writtenChunk_spec _ hin.2 (le_max_left _ _)).1]
    cases hold : e.chunks.lookup i with
    | none =>
      rw [getD_none, length_nil]
      omega
    | some old =>
      have hfits := h.chunks i old hold
      rw [getD_some]
      omega
  · rw [if_neg hi] at hc
    have hfits := h.chunks i chunk hc
    omega

theorem CacheFits.writeAt (hc : CacheFits c) (inode offset : Nat)
    (hdata : 0 < data.length) (now : Nat) : CacheFits (c.writeAt inode offset data now) := by
  intro n e hl
  have hl := (c.lookup_writeAt inode offset data now n).of_some hl
  split at hl
  · cases hl
    exact (hc.writeBase inode now).write hdata _ _
  · exact hc n e hl

theorem SyncsState.writeAt_ok (h : DataOk s) (inode offset : Nat)
    (hdata : 0 < data.length) (now : Nat) : Keeps none s (s.writeAt inode offset data now) := by
  have hcs := (CacheFits.writeBase h.history.fits inode now).chunkSizeOf
  have hmarks := s.cache.markAt_writeAt inode offset hdata now hcs
  have hhistory (n i gen bytes) (hd : s.history n i gen = some bytes) :
      (s.writeAt inode offset data now).history n i gen = some bytes := by
    have hle := h.history.fresh n i gen bytes hd
    exact (if_neg fun hnew => by omega).trans hd
  have hnew (n i gen) (hm : (s.writeAt inode offset data now).cache.markAt n i = some gen) :
      s.cache.markAt n i = some gen ∨ gen = s.cache.curGen + 1 := by
    rw [show (s.writeAt inode offset data now).cache.markAt n i = _ from hmarks n i] at hm
    split at hm
    · exact .inr (some.inj hm).symm
    · exact .inl hm
  refine ⟨⟨⟨fun n i v hv => hhistory _ _ _ _ (h.versions.known n i v hv), fun n i v gen hv hm => ?_, h.versions.ordered⟩,
    ⟨fun n i gen bytes hd => ?_, CacheFits.writeAt h.history.fits inode offset hdata now, fun n i gen hm => ?_⟩⟩, ?_⟩
  · cases hnew n i gen hm with
    | inl hold => exact h.versions.marked n i v gen hv hold
    | inr heq =>
      have := h.history.fresh _ _ _ _ (h.versions.known n i v hv)
      omega
  · show gen ≤ (s.cache.writeAt inode offset data now).curGen
    rw [writeAt_curGen]
    simp only [writeAt] at hd
    split at hd
    · next hin => exact le_of_eq hin.2.1
    · exact Nat.le_succ_of_le (h.history.fresh n i gen bytes hd)
  · show ∃ chunk, (s.cache.writeAt inode offset data now).chunkAt n i = some chunk ∧ _
    rw [show (s.writeAt inode offset data now).cache.markAt n i = _ from hmarks n i] at hm
    by_cases hin : n = inode ∧ i ∈ touched offset data
    · rw [if_pos hin, some.injEq] at hm
      obtain ⟨rfl, hi⟩ := hin
      have hchunk := chunkAt_of_lookup (i := i) (s.cache.lookup_writeAt_self n offset hdata now hcs)
      rw [lookup_write_chunks, hcs, if_pos hi] at hchunk
      exact ⟨_, hchunk, (if_pos ⟨rfl, hm.symm, hi⟩).trans hchunk⟩
    · rw [if_neg hin] at hm
      rw [s.cache.chunkAt_writeAt inode offset hdata now hcs hm hin]
      obtain ⟨chunk, hchunk, hd⟩ := h.history.marks n i gen hm
      exact ⟨chunk, hchunk, hhistory _ _ _ _ hd⟩
  · exact {
      history := hhistory
      marks n i gen hm := (hnew n i gen hm).imp_right fun heq => by omega
      incarnation := le_rfl
      held _ _ hm := hm
      committed := fun m ⟨v, hv, hle, hd⟩ => ⟨v, hv, hle, hhistory _ _ _ _ hd⟩
      versions _ _ _ _ hv := hv }

/-! The controller. -/

/-- What the controller has of a chunk, the staged version first. -/
theorem SyncsState.holds_or (h : DataOk s) (hm : s.Holds m) :
    ∃ v, (s.staged m.inode m.chunk).or (s.committed m.inode m.chunk) = some v ∧ m.gen ≤ v.gen ∧
      s.IsVersion m.inode m.chunk v := by
  obtain ⟨v, hv, hle⟩ := hm
  cases hst : s.staged m.inode m.chunk with
  | none =>
    have hcom := hv.resolve_left (by rw [hst]; exact nofun)
    exact ⟨v, by rw [none_or]; exact hcom, hle, hv⟩
  | some w =>
    refine ⟨w, some_or, ?_, .inl hst⟩
    cases hv with
    | inl hstaged =>
      rw [hst, some.injEq] at hstaged
      exact hstaged ▸ hle
    | inr hcom => exact le_trans hle (h.versions.ordered _ _ _ _ hcom hst)

theorem SyncsState.isVersion_commit {inodes : Nat → Bool} {n i : Nat} {v : Version}
    (hv : (s.commit inodes).IsVersion n i v) : s.IsVersion n i v := by
  cases hv with
  | inl hstaged =>
    obtain ⟨-, hstaged⟩ := ite_none_left_eq_some.mp hstaged
    exact .inl hstaged
  | inr hcom =>
    simp only [commit] at hcom
    split at hcom
    · exact (or_eq_some_iff.mp hcom).imp_right And.right
    · exact .inr hcom

theorem SyncsState.committed_of_holds (h : DataOk s) {inodes : Nat → Bool}
    (hm : s.Holds m) (hin : inodes m.inode = true) : (s.commit inodes).HasCommitted m := by
  obtain ⟨v, hor, hle, hv⟩ := s.holds_or h hm
  exact ⟨v, (if_pos hin).trans hor, hle, h.versions.known _ _ _ hv⟩

theorem SyncsState.commit_ok (h : DataOk s) (sender : Option Nat) (inodes : Nat → Bool) :
    Keeps sender s (s.commit inodes) := by
  refine ⟨⟨⟨fun n i v hv => h.versions.known n i v (isVersion_commit hv),
    fun n i v gen hv hm => h.versions.marked n i v gen (isVersion_commit hv) hm, fun n i v w hv hw => ?_⟩,
    { h.history with }⟩, ?_⟩
  · simp only [commit] at hv hw
    split at hw
    · cases hw
    · next hout =>
      rw [if_neg hout] at hv
      exact h.versions.ordered n i v w hv hw
  · refine {
      history _ _ _ _ hd := hd
      marks _ _ _ hm := .inl hm
      incarnation := le_rfl
      held _ m hm := ?_
      committed m hm := ?_
      versions n i v _ hv := isVersion_commit hv }
    · by_cases hin : inodes m.inode = true
      · obtain ⟨v, hv, hle, -⟩ := s.committed_of_holds h hm hin
        exact ⟨v, .inr hv, hle⟩
      · obtain ⟨v, hv, hle⟩ := hm
        exact ⟨v, hv.imp (if_neg hin).trans (if_neg hin).trans, hle⟩
    · by_cases hin : inodes m.inode = true
      · obtain ⟨v, hv, hle, -⟩ := hm
        exact s.committed_of_holds h ⟨v, .inr hv, hle⟩ hin
      · obtain ⟨v, hv, hle, hd⟩ := hm
        exact ⟨v, (if_neg hin).trans hv, hle, hd⟩

theorem SyncsState.stage_ok (h : DataOk s) {p : Push} (hp : CopyOk s p) {run : List Nat}
    (hrun : ∀ i ∈ run, i ∈ p.runs.flatten) : Keeps (some p.inode) s (s.stage p.inode p.d run) := by
  have hcases (n i v) (hv : (s.stage p.inode p.d run).IsVersion n i v) :
      n = p.inode ∧ i ∈ run ∧ v = ⟨(p.d.gens.lookup i).getD 0, p.d.data i⟩ ∨ s.IsVersion n i v := by
    cases hv with
    | inl hstaged =>
      simp only [stage] at hstaged
      split at hstaged
      · next hin => exact .inl ⟨hin.1, hin.2, (some.inj hstaged).symm⟩
      · exact .inr (.inl hstaged)
    | inr hcom => exact .inr (.inr hcom)
  refine ⟨⟨⟨fun n i v hv => ?_, fun n i v gen hv hm => ?_, fun n i v w hv hw => ?_⟩, { h.history with }⟩, ?_⟩
  · cases hcases n i v hv with
    | inl hnew =>
      obtain ⟨rfl, hi, rfl⟩ := hnew
      exact (hp i (hrun i hi)).1
    | inr hold => exact h.versions.known n i v hold
  · cases hcases n i v hv with
    | inl hnew =>
      obtain ⟨rfl, hi, rfl⟩ := hnew
      exact (hp i (hrun i hi)).2.1 gen hm
    | inr hold => exact h.versions.marked n i v gen hold hm
  · simp only [stage] at hw
    split at hw
    · next hin =>
      obtain ⟨rfl, hi⟩ := hin
      cases hw
      exact (hp i (hrun i hi)).2.2 v (.inr hv)
    · exact h.versions.ordered n i v w hv hw
  · refine {
      history _ _ _ _ hd := hd
      marks _ _ _ hm := .inl hm
      incarnation := le_rfl
      held _ m hm := ?_
      committed _ hm := hm
      versions n i v hne hv := ?_ }
    · obtain ⟨v, hv, hle⟩ := hm
      by_cases hin : m.inode = p.inode ∧ m.chunk ∈ run
      · refine ⟨_, .inl (if_pos hin), ?_⟩
        rw [hin.1] at hv
        exact le_trans hle ((hp m.chunk (hrun _ hin.2)).2.2 v hv)
      · exact ⟨v, hv.imp_left (if_neg hin).trans, hle⟩
    · cases hcases n i v hv with
      | inl hnew => exact absurd (congrArg some hnew.1.symm) hne
      | inr hold => exact hold

theorem SyncsState.restart_ok (h : DataOk s) (epoch : Nat) :
    Keeps none s { s with epoch, incarnation := s.incarnation + 1, staged := fun _ _ => none } := by
  have hversion : ∀ n i v, IsVersion { s with epoch, incarnation := s.incarnation + 1, staged := fun _ _ => none } n i v →
      s.IsVersion n i v := fun n i v hv => .inr (hv.resolve_left nofun)
  refine ⟨⟨⟨fun n i v hv => h.versions.known n i v (hversion n i v hv),
    fun n i v gen hv hm => h.versions.marked n i v gen (hversion n i v hv) hm, nofun⟩,
    { h.history with }⟩, ?_⟩
  exact {
    history _ _ _ _ hd := hd
    marks _ _ _ hm := .inl hm
    incarnation := Nat.le_succ _
    held hsame := absurd hsame (Nat.succ_ne_self _)
    committed _ hm := hm
    versions n i v _ hv := hversion n i v hv }

/-! What an `Fsync` acknowledges. -/

/-- The epoch of the `Fsync` that a task makes next, and what is marked clean if it succeeds. -/
def PushTask.acknowledges : PushTask → Option (Nat × List SentChunk)
  | .volume [] lastEpoch marks => some (lastEpoch, marks)
  | .drain _ p => some (p.lastEpoch, p.uncleaned)
  | .sync _ _ epoch marks => some (epoch, marks)
  | _ => none

/-- An `Fsync` that succeeds acknowledges only what was sent to the controller that answers,
or what has been sent again or was committed before. -/
def SyncEvent.Covers (s : SyncsState) : SyncEvent → Prop
  | .run id env => ∀ t ∈ s.tasks.lookup id, env.outcome = .ok → ∀ a ∈ t.acknowledges, ¬ s.Stale a.1 →
      ∀ m ∈ a.2, m.incarnation = s.incarnation ∨ s.Holds m
  | _ => True

theorem SyncsState.committed_of_fsync (h : DataOk s)
    (hm : s.Holds m) (hin : m.inode = inode ∨ ∀ retry, after ≠ .close retry) : (s.fsync after inode).HasCommitted m := by
  unfold fsync
  split
  · next retry =>
    have heq : m.inode = inode := hin.resolve_right fun hne => hne retry rfl
    exact s.committed_of_holds h hm (decide_eq_true heq)
  · exact s.committed_of_holds h hm rfl

theorem SyncsState.holds_of_fsync (hm : (s.fsync after inode).HasCommitted m) : s.Holds m := by
  obtain ⟨v, hv, hle, -⟩ := hm
  refine ⟨v, ?_, hle⟩
  unfold fsync at hv
  split at hv <;> exact isVersion_commit (.inr hv)

/-! One section of a task. -/

/-- What one section of the task `id` leaves; `sender` is the inode whose lock it has, and `covered`
the condition under which what it marks next is committed. -/
structure SectionDone (id : Nat) (sender : Option Nat) (covered : Prop) (s s' : SyncsState) (next : Option PushTask) :
    Prop where
  data : DataOk s'
  moves : Moves sender s s'
  tasks : s'.tasks = s.tasks
  goes : ∀ t ∈ next, TaskOk s' t
  /-- a lock is kept, or it was free -/
  lock : ∀ t ∈ next, ∀ n, t.lock = some n →
    sender = some n ∨ ∀ id' u, id' ≠ id → s.tasks.lookup id' = some u → u.lock ≠ some n
  marks : covered → ∀ t ∈ next, ∀ m ∈ marking t, s'.HasCommitted m

/-- The task can follow one that has the lock of `sender`: it has that lock or none. -/
def Follows (sender : Option Nat) (s : SyncsState) (t : PushTask) : Prop := TaskOk s t ∧ (t.lock = sender ∨ t.lock = none)

/-- Such a task that marks nothing. -/
def Continues (sender : Option Nat) (s : SyncsState) (t : PushTask) : Prop := Follows sender s t ∧ marking t = []

namespace SectionDone

variable {id : Nat} {sender : Option Nat} {covered : Prop} {s s' : SyncsState}
  (hdata : DataOk s') (hmoves : Moves sender s s') (htasks : s'.tasks = s.tasks)
include hdata hmoves htasks

theorem of_follows (hnext : ∀ t ∈ next, Follows sender s' t)
    (hmarks : covered → ∀ t ∈ next, ∀ m ∈ marking t, s'.HasCommitted m) :
    SectionDone id sender covered s s' next where
  data := hdata
  moves := hmoves
  tasks := htasks
  goes t ht := (hnext t ht).1
  lock t ht n hn := by
    obtain heq | hnone := (hnext t ht).2
    · exact .inl (heq.symm.trans hn)
    · exact absurd (hnone.symm.trans hn) (by simp)
  marks := hmarks

theorem of_continues (hnext : ∀ t ∈ next, Continues sender s' t) : SectionDone id sender covered s s' next := by
  refine of_follows hdata hmoves htasks (fun t ht => (hnext t ht).1) fun _ t ht m hm => ?_
  rw [(hnext t ht).2] at hm
  cases hm

theorem stop : SectionDone id sender covered s s' none :=
  of_continues hdata hmoves htasks nofun

theorem go (hnext : Continues sender s' t) : SectionDone id sender covered s s' (some t) :=
  of_continues hdata hmoves htasks fun _ ht => by cases ht; exact hnext

end SectionDone

variable {covered : Prop} {sender : Option Nat}

theorem pushed_cases {epoch : Nat} {uncleaned : List SentChunk}
    (ht : t ∈ pushed inode epoch uncleaned after) :
    t = .sync after inode epoch uncleaned ∨ ∃ left lastEpoch marks, after = .volume left lastEpoch marks ∧
      (t = .volume left lastEpoch marks ∨ t = .volume left epoch (marks ++ uncleaned)) := by
  cases after with
  | flush => cases ht
  | fsync blocking retry | close retry =>
    obtain ⟨-, ⟨⟩⟩ := ite_none_left_eq_some.mp ht
    exact .inl rfl
  | volume left lastEpoch marks =>
    simp only [pushed] at ht
    split at ht <;> cases ht
    · exact .inr ⟨_, _, _, rfl, .inl rfl⟩
    · exact .inr ⟨_, _, _, rfl, .inr rfl⟩

theorem continues_pushed (inode epoch : Nat) {uncleaned : List SentChunk}
    (hafter : after.Ok s) (hsent : ∀ m ∈ uncleaned, SentOk s m ∧ m.inode = inode) :
    ∀ t ∈ pushed inode epoch uncleaned after, Continues (some inode) s t := by
  intro t ht
  obtain rfl | ⟨left, lastEpoch, marks, rfl, rfl | rfl⟩ := pushed_cases ht
  · refine ⟨⟨hsent, ?_⟩, rfl⟩
    cases after with
    | fsync blocking retry => exact .inl rfl
    | flush | close | volume => exact .inr rfl
  · exact ⟨⟨hafter, .inr rfl⟩, rfl⟩
  · refine ⟨⟨fun m hm => ?_, .inr rfl⟩, rfl⟩
    obtain hold | hnew := mem_append.mp hm
    · exact hafter m hold
    · exact (hsent m hnew).1

theorem copyOk_getDirtyChunks (h : DataOk s) {d : DirtyChunks}
    (hd : s.cache.getDirtyChunks inode = some d) (beyond : List Nat) :
    CopyOk s { inode, d, beyond, runs := d.runs } := by
  obtain ⟨e, hl, rfl⟩ := of_getDirtyChunks hd
  intro i hi
  have hi : i ∈ e.getDirtyChunks.indices := flatten_runs ▸ hi
  obtain ⟨hchunk, -⟩ := mem_indices.mp hi
  simp only [CachedEntry.getDirtyChunks, lookup_select] at hchunk
  split at hchunk
  case isFalse => cases hchunk
  case isTrue hmarked =>
    obtain ⟨chunk, hchunk⟩ := isSome_iff_exists.mp hchunk
    obtain ⟨gen, hgen⟩ := isSome_iff_exists.mp hmarked
    have hmark : s.cache.markAt inode i = some gen := (markAt_of_lookup hl).trans hgen
    have hgens : (e.getDirtyChunks.gens.lookup i).getD 0 = gen := by
      simp only [CachedEntry.getDirtyChunks, lookup_select, hchunk, isSome_some, if_true, hgen, getD_some]
    have hdata : e.getDirtyChunks.data i = chunk := by
      have hfits := (h.history.fits inode e hl).chunks i chunk hchunk
      have hcs := (h.history.fits inode e hl).chunkSizeOf
      simp only [data, CachedEntry.getDirtyChunks, lookup_select, hmarked, if_true, hchunk, getD_some, hcs]
      exact take_of_length_le (by omega)
    rw [hgens, hdata]
    refine ⟨?_, fun gen' hgen' => ?_, fun v hv => h.versions.marked inode i v gen hv hmark⟩
    · obtain ⟨chunk', hchunk', hknown⟩ := h.history.marks inode i gen hmark
      rw [chunkAt_of_lookup hl, hchunk, some.injEq] at hchunk'
      rw [hknown, hchunk']
    · rw [hmark, some.injEq] at hgen'
      exact le_of_eq hgen'

theorem enter_done (h : DataOk s) (hafter : after.Ok s) (hrun : s.enter id after inode = some (s', next)) :
    SectionDone id sender covered s s' next := by
  unfold enter at hrun
  split_ifs at hrun with hlocked
  have hfree : ∀ id' u, id' ≠ id → s.tasks.lookup id' = some u → u.lock ≠ some inode :=
    fun id' u hne hu hn => hlocked ⟨⟨id', u⟩, mem_entries.mpr hu, hne, hn⟩
  have hdone : (∀ t ∈ next, Continues (some inode) s t) → SectionDone id sender covered s s next := by
    intro hnext
    have hlock : SectionDone id (some inode) covered s s next := .of_continues h (.refl _ s) rfl hnext
    refine ⟨h, .refl _ s, rfl, hlock.goes, fun t ht n hn => .inr ?_, hlock.marks⟩
    obtain heq | hfree := hlock.lock t ht n hn
    · exact some.inj heq ▸ hfree
    · exact hfree
  split at hrun <;> cases hrun
  · exact hdone (continues_pushed inode 0 hafter nofun)
  rename_i d hd
  refine hdone fun t ht => ?_
  cases ht
  exact ⟨⟨⟨copyOk_getDirtyChunks h hd _, nofun, hafter⟩, .inl rfl⟩, rfl⟩

theorem runPush_done {p : Push} (h : DataOk s) (hp : PushOk s after p)
    (hrun : s.runPush outcome after p = some (s', next)) : SectionDone id (some p.inode) covered s s' next := by
  unfold runPush at hrun
  split at hrun
  · next runs i beyond hbeyond =>
    -- a chunk behind the end
    cases hrun
    obtain ⟨hdata, hmoves⟩ := s.markClean_ok h none p.inode i ((p.d.gens.lookup i).getD 0)
    have hpush := hmoves.pushOk h.history nofun hp
    exact .go hdata (s.markClean_ok h _ p.inode i _).2 rfl ⟨⟨{ hpush with }, .inl rfl⟩, rfl⟩
  · next run runs hbeyond hruns =>
    have hin (i) (hi : i ∈ run ++ runs.flatten) : i ∈ p.runs.flatten := by rwa [hruns, flatten_cons]
    obtain ⟨hdata, hmoves⟩ := s.stage_ok h hp.copy fun i hi => hin i (mem_append_left _ hi)
    split at hrun
    · cases hrun
      refine .go hdata hmoves rfl ⟨⟨⟨fun i hi => ?_, fun m hm => ?_, hmoves.afterOk hp.after⟩, .inl rfl⟩, rfl⟩
      · obtain ⟨hknown, hmarks, hversions⟩ := hp.copy i (hin i (mem_append_right _ hi))
        refine ⟨hknown, hmarks, fun v hv => ?_⟩
        obtain hstaged | hcom := hv
        · simp only [stage] at hstaged
          split at hstaged
          · cases hstaged
            exact le_rfl
          · exact hversions v (.inl hstaged)
        · exact hversions v (.inr hcom)
      · obtain hold | hnew := mem_append.mp hm
        · exact ⟨hmoves.sentOk (hp.sent m hold).1, (hp.sent m hold).2⟩
        · obtain ⟨i, hi, rfl⟩ := mem_map.mp hnew
          exact ⟨⟨le_rfl, fun _ => ⟨_, .inl (if_pos ⟨rfl, hi⟩), le_rfl⟩⟩, rfl⟩
    · split at hrun <;> cases hrun
      · exact .stop h (.refl _ _) rfl
      · exact .go h (.refl _ _) rfl ⟨⟨{ hp with }, .inl rfl⟩, rfl⟩
    · next applied =>
      cases hrun
      cases applied with
      | true => exact .stop hdata hmoves rfl
      | false => exact .stop h (.refl _ _) rfl
  · cases hrun
    exact .of_continues h (.refl _ _) rfl (continues_pushed p.inode p.lastEpoch hp.after hp.sent)

theorem SyncsState.fsync_ok (h : DataOk s) (sender : Option Nat) (after : PushFor) (inode : Nat) :
    DataOk (s.fsync after inode) ∧ Moves sender s (s.fsync after inode) ∧ (s.fsync after inode).tasks = s.tasks := by
  unfold fsync
  split <;> exact ⟨(s.commit_ok h sender _).1, (s.commit_ok h sender _).2, rfl⟩

theorem runFsync_done {reqEpoch : Nat} {onStale onOk : Option PushTask} (h : DataOk s)
    (hstale : ∀ t ∈ onStale, Continues sender s t) (hok : ∀ s', Moves none s s' → ∀ t ∈ onOk, Follows sender s' t)
    (hmarks : outcome = .ok → ¬ s.Stale reqEpoch → covered →
      ∀ t ∈ onOk, ∀ m ∈ marking t, (s.fsync after inode).HasCommitted m)
    (hrun : s.runFsync outcome after inode reqEpoch onStale onOk = (s', next)) :
    SectionDone id sender covered s s' next := by
  obtain ⟨hdata, hmoves, htasks⟩ := s.fsync_ok h sender after inode
  unfold runFsync at hrun
  split at hrun
  · cases hrun
    exact .stop hdata hmoves htasks
  · cases hrun
    exact .stop h (.refl _ _) rfl
  · cases hrun
    exact .stop h (.refl _ _) rfl
  · split at hrun <;> cases hrun
    · exact .of_continues h (.refl _ _) rfl hstale
    · rename_i hfresh
      exact .of_follows hdata hmoves htasks (hok _ (s.fsync_ok h none after inode).2.1) (hmarks rfl hfresh)

theorem continues_stale (epoch : Nat) (marks : List SentChunk) :
    ∀ t ∈ stale inode after, Continues (PushTask.sync after inode epoch marks).lock s t := by
  intro t ht
  unfold stale at ht
  split at ht <;> cases ht
  · exact ⟨⟨trivial, .inl rfl⟩, rfl⟩
  · exact ⟨⟨trivial, .inr rfl⟩, rfl⟩
  · exact ⟨⟨trivial, .inr rfl⟩, rfl⟩

/-- Every section keeps the invariant, whatever the controller answers; and what it marks next is
committed, if its `Fsync` covers what it acknowledges. -/
theorem runTask_done {env : PushEnv} (h : DataOk s) (ht : TaskOk s t) (hrun : s.runTask id env t = some (s', next)) :
    SectionDone id t.lock ((∀ m ∈ marking t, s.HasCommitted m) ∧
      (env.outcome = .ok → ∀ a ∈ t.acknowledges, ¬ s.Stale a.1 → ∀ m ∈ a.2, m.incarnation = s.incarnation ∨ s.Holds m))
      s s' next := by
  have hholds (m) (hsent : SentOk s m) (hor : m.incarnation = s.incarnation ∨ s.Holds m) : s.Holds m :=
    hor.elim hsent.2 fun hm => hm
  cases t with
  | entries =>
    rw [runTask] at hrun
    split_ifs at hrun
    · cases hrun
      exact .stop h (.refl _ _) rfl
    · cases hrun
      exact .go h (.refl _ _) rfl ⟨⟨nofun, .inl rfl⟩, rfl⟩
  | volume left lastEpoch marks =>
    cases left with
    | cons inode left =>
      have hafter : PushFor.Ok s (.volume left lastEpoch marks) := ht
      exact enter_done h hafter hrun
    | nil =>
      rw [runTask] at hrun
      split at hrun
      · cases hrun
        exact .stop h (.refl _ _) rfl
      refine runFsync_done h (continues_stale 0 []) (fun s₁ _ t' ht' => ?_) ?_ (some.inj hrun)
      · cases ht'
        exact ⟨trivial, .inr rfl⟩
      · intro hok hfresh hcovers t' ht' m hm
        cases ht'
        exact s.committed_of_fsync h (hholds m (ht m hm) (hcovers.2 hok _ rfl hfresh m hm)) (.inr nofun)
  | enter after inode => exact enter_done h ht hrun
  | push after p => exact runPush_done h ht hrun
  | drain after p =>
    refine runFsync_done h (fun t' ht' => by cases ht') (fun s₁ hmoves t' ht' => ?_) ?_ (some.inj hrun)
    · cases ht'
      have hpush := hmoves.pushOk h.history nofun ht
      exact ⟨⟨hpush.copy, nofun, hpush.after⟩, .inl rfl⟩
    · intro hok hfresh hcovers t' ht' m hm
      cases ht'
      exact s.committed_of_fsync h (hholds m (ht.sent m hm).1 (hcovers.2 hok _ rfl hfresh m hm)) (.inr nofun)
  | drained after p marks =>
    cases marks with
    | nil =>
      cases hrun
      exact .go h (.refl _ _) rfl ⟨⟨ht, .inl rfl⟩, rfl⟩
    | cons m marks =>
      cases hrun
      obtain ⟨hdata, hmoves⟩ := s.markClean_ok h none m.inode m.chunk m.gen
      refine .of_follows hdata (s.markClean_ok h _ _ _ _).2 rfl (fun t' ht' => ?_) fun hcovers t' ht' m' hm' => ?_
      · cases ht'
        exact ⟨hmoves.pushOk h.history nofun ht, .inl rfl⟩
      · cases ht'
        exact hmoves.committed m' (hcovers.1 m' (mem_cons_of_mem _ hm'))
  | sync after inode epoch marks =>
    refine runFsync_done h (continues_stale epoch marks) (fun s₁ _ t' ht' => ?_) ?_ (some.inj hrun)
    · cases ht'
      exact ⟨trivial, .inl rfl⟩
    · intro hok hfresh hcovers t' ht' m hm
      cases ht'
      exact s.committed_of_fsync h (hholds m (ht m hm).1 (hcovers.2 hok _ rfl hfresh m hm)) (.inl (ht m hm).2)
  | mark lock marks =>
    cases marks with
    | nil =>
      cases hrun
      exact .stop h (.refl _ _) rfl
    | cons m marks =>
      cases hrun
      obtain ⟨hdata, hmoves⟩ := s.markClean_ok h lock m.inode m.chunk m.gen
      refine .of_follows hdata hmoves rfl (fun t' ht' => ?_) fun hcovers t' ht' m' hm' => ?_
      · cases ht'
        exact ⟨trivial, .inl rfl⟩
      · cases ht'
        exact hmoves.committed m' (hcovers.1 m' (mem_cons_of_mem _ hm'))

/-- An `Fsync` that succeeds is followed by all the marks it acknowledges. -/
theorem runTask_acknowledged (id : Nat) {env : PushEnv} {a : Nat × List SentChunk}
    (hok : env.outcome = .ok) (ha : a ∈ t.acknowledges) (hfresh : ¬ s.Stale a.1) (hne : a.2 ≠ []) :
    ∃ after inode t', s.runTask id env t = some (s.fsync after inode, some t') ∧ marking t' = a.2 := by
  have hfsync (after inode onStale onOk) :
      s.runFsync env.outcome after inode a.1 onStale onOk = (s.fsync after inode, onOk) := by
    rw [hok]
    exact if_neg hfresh
  cases t with
  | volume left lastEpoch marks =>
    cases left with
    | cons inode left => cases ha
    | nil =>
      cases ha
      refine ⟨.volume [] lastEpoch marks, 1, .mark none marks, ?_, rfl⟩
      rw [runTask, if_neg hne]
      exact congrArg some (hfsync _ _ _ _)
  | drain after p =>
    cases ha
    exact ⟨.flush, p.inode, .drained after _ p.uncleaned, congrArg some (hfsync _ _ _ _), rfl⟩
  | sync after inode epoch marks =>
    cases ha
    exact ⟨after, inode, .mark _ marks, congrArg some (hfsync _ _ _ _), rfl⟩
  | entries | enter | push | drained | mark => cases ha

/-! Runs. -/

namespace SyncsInv

variable {s s' : SyncsState}

theorem start (maxBytes : Int) (epoch : Nat) : SyncsInv (.start maxBytes epoch) where
  data := {
    versions := ⟨(fun _ _ _ hv => by cases hv <;> contradiction), (fun _ _ _ _ hv => by cases hv <;> contradiction),
      nofun⟩
    history := ⟨nofun, nofun, nofun⟩ }
  tasks _ _ hl := by cases hl
  locks _ _ _ _ _ hl := by cases hl

theorem moves {event : SyncEvent} (h : SyncsInv s) (hdata : DataOk s') (hmoves : Moves none s s')
    (htasks : s'.tasks = s.tasks) : SyncsInv s' ∧ (s.MarksCommitted → event.Covers s → s'.MarksCommitted) := by
  refine ⟨⟨hdata, fun id t hl => ?_, htasks ▸ h.locks⟩, fun hp _ id t hl m hm => ?_⟩
  · rw [htasks] at hl
    exact hmoves.taskOk h.data.history nofun (h.tasks id t hl)
  · rw [htasks] at hl
    exact hmoves.committed m (hp id t hl m hm)

/-- The tasks after a section of the task `id`: the others, and what is left of this one. -/
def replaceTask (id : Nat) (next : Option PushTask) (tasks : AList fun _ : Nat => PushTask) :
    AList fun _ : Nat => PushTask :=
  match next with
  | none => tasks.erase id
  | some t => tasks.insert id t

theorem lookup_replaceTask {tasks : AList fun _ : Nat => PushTask} {id' : Nat} {u : PushTask}
    (hu : (replaceTask id next tasks).lookup id' = some u) :
    id' ≠ id ∧ tasks.lookup id' = some u ∨ id' = id ∧ next = some u := by
  cases next with
  | none =>
    rw [replaceTask, lookup_erase] at hu
    split_ifs at hu with hne
    exact .inl ⟨hne, hu⟩
  | some t =>
    rw [replaceTask, lookup_insert] at hu
    split_ifs at hu with heq
    · exact .inr ⟨heq, hu⟩
    · exact .inl ⟨heq, hu⟩

theorem after_section (h : SyncsInv s) (hdone : SectionDone id sender covered s s' next)
    (hsender : ∀ id' u n, id' ≠ id → s.tasks.lookup id' = some u → u.lock = some n → sender ≠ some n) :
    SyncsInv { s' with tasks := replaceTask id next s.tasks } ∧
      (covered → s.MarksCommitted → MarksCommitted { s' with tasks := replaceTask id next s.tasks }) := by
  have hone : ∀ {id' u u' n}, id' ≠ id → s.tasks.lookup id' = some u → u.lock = some n → next = some u' →
      u'.lock ≠ some n := by
    intro id' u u' n hne hu hn hu' hn'
    obtain hkept | hfree := hdone.lock u' hu' n hn'
    · exact hsender id' u n hne hu hn hkept
    · exact hfree id' u hne hu hn
  refine ⟨⟨hdone.data.with_tasks _, fun id' u hu => ?_, fun id₁ id₂ t₁ t₂ n h₁ h₂ hn₁ hn₂ => ?_⟩,
      fun hcovered hp id' u hu m hm => ?_⟩
  · obtain ⟨hne, hold⟩ | ⟨-, hnew⟩ := lookup_replaceTask hu
    · exact (hdone.moves.taskOk h.data.history (fun n hn => hsender id' u n hne hold hn) (h.tasks id' u hold)).with_tasks
        hdone.data.history _
    · exact (hdone.goes u hnew).with_tasks hdone.data.history _
  · obtain ⟨hne₁, hold₁⟩ | ⟨rfl, hnew₁⟩ := lookup_replaceTask h₁
    · obtain ⟨-, hold₂⟩ | ⟨rfl, hnew₂⟩ := lookup_replaceTask h₂
      · exact h.locks id₁ id₂ t₁ t₂ n hold₁ hold₂ hn₁ hn₂
      · exact absurd hn₂ (hone hne₁ hold₁ hn₁ hnew₂)
    · obtain ⟨hne₂, hold₂⟩ | ⟨rfl, -⟩ := lookup_replaceTask h₂
      · exact absurd hn₁ (hone hne₂ hold₂ hn₂ hnew₁)
      · rfl
  · obtain ⟨-, hold⟩ | ⟨-, hnew⟩ := lookup_replaceTask hu
    · exact hdone.moves.committed m (hp id' u hold m hm)
    · exact hdone.marks hcovered u hnew m hm

/-- One event keeps the invariant; and if its `Fsync` covers what it acknowledges, then what
is being marked clean is committed. -/
theorem step {event : SyncEvent} (h : SyncsInv s) (hs : s.step event = some s') :
    SyncsInv s' ∧ (s.MarksCommitted → event.Covers s → s'.MarksCommitted) := by
  have hcache : ∀ {cache : NodeCache}, MarksStay s.cache cache → CacheFits cache → s' = { s with cache } →
      SyncsInv s' ∧ (s.MarksCommitted → event.Covers s → s'.MarksCommitted) := by
    rintro cache hstay hfits rfl
    exact h.moves (h.data.of_cache hstay hfits) (.of_cache none s.tasks fun n i gen hm => (hstay.marks n i gen hm).1) rfl
  cases event with rw [SyncsState.step] at hs
  | write inode offset data now =>
    split_ifs at hs with hne
    cases hs
    obtain ⟨hdata, hmoves⟩ := s.writeAt_ok h.data inode offset (length_pos_of_ne_nil hne) now
    exact h.moves hdata hmoves rfl
  | reply inode i totalSize data gen now =>
    split_ifs at hs with hchunk
    exact hcache (.putChunk s.cache inode i totalSize data gen now)
      (CacheFits.putChunk h.data.history.fits hchunk.1 hchunk.2 gen now) (some.inj hs).symm
  | invalidate inode =>
    have hsheds := sheds_invalidateIfNotDirty inode s.cache
    exact hcache (.of_sheds hsheds) (CacheFits.of_sheds h.data.history.fits hsheds) (some.inj hs).symm
  | begin id call =>
    split_ifs at hs
    cases hs
    have htask : Continues none s call.task := by cases call <;> exact ⟨⟨trivial, .inr rfl⟩, rfl⟩
    have hdone : SectionDone id none True s s (some call.task) := .go h.data (.refl none s) rfl htask
    obtain ⟨hinv, hmarks⟩ := h.after_section hdone nofun
    exact ⟨hinv, fun hp _ => hmarks trivial hp⟩
  | commit inodes =>
    cases hs
    obtain ⟨hdata, hmoves⟩ := s.commit_ok h.data none (· ∈ inodes)
    exact h.moves hdata hmoves rfl
  | restart epoch =>
    split_ifs at hs
    cases hs
    obtain ⟨hdata, hmoves⟩ := s.restart_ok h.data epoch
    exact h.moves hdata hmoves rfl
  | run id env =>
    split at hs
    · cases hs
    next t hl =>
    cases hrun : s.runTask id env t with
    | none => simp [hrun] at hs
    | some result =>
      obtain ⟨s₁, next⟩ := result
      have hdone := runTask_done h.data (h.tasks id t hl) hrun
      obtain ⟨hinv, hmarks⟩ := h.after_section hdone fun id' u n hne hu hn ht => hne (h.locks id' id u t n hu hl hn ht)
      obtain rfl : s' = { s₁ with tasks := replaceTask id next s.tasks } := by
        rw [hrun] at hs
        rw [← hdone.tasks]
        cases next <;> exact (some.inj hs).symm
      exact ⟨hinv, fun hp hcovers => hmarks ⟨hp id t hl, hcovers t hl⟩ hp⟩

theorem not_committed_of_lost {id : Nat} {env : PushEnv} (hcovers : ¬ SyncEvent.Covers s (.run id env))
    (hs : s.step (.run id env) = some s') : ¬ s'.MarksCommitted := by
  intro hp
  apply hcovers
  intro t hl hok a ha hfresh m hm
  obtain ⟨after, inode, t', hrun, hmarks⟩ :=
    runTask_acknowledged id hok ha hfresh (ne_nil_of_mem hm)
  rw [SyncsState.step, hl] at hs
  dsimp only at hs
  rw [hrun] at hs
  cases hs
  have hcommitted : (s.fsync after inode).HasCommitted m := hp id t' (AList.lookup_insert _) m (hmarks ▸ hm)
  exact .inr (holds_of_fsync hcommitted)

end SyncsInv

/-- What is marked clean is committed, all along a run, if and only if no `Fsync` of the run
acknowledges a chunk that the controller has lost. -/
theorem marks_committed_iff (maxBytes : Int) (epoch : Nat) (events : List SyncEvent) :
    Throughout SyncsState.step MarksCommitted (.start maxBytes epoch) events ↔
      Allowed SyncsState.step (fun s event => event.Covers s) (.start maxBytes epoch) events := by
  refine throughout_iff_allowed_of_breaks (I := SyncsInv) (fun s event s' h hp hcovers hs => ?_)
    (fun s event s' h _ hcovers hs => ?_) events (.start maxBytes epoch) nofun
  · obtain ⟨hnext, hmarks⟩ := h.step hs
    exact ⟨hnext, hmarks hp hcovers⟩
  · cases event with
    | run id env => exact SyncsInv.not_committed_of_lost hcovers hs
    | write | reply | invalidate | begin | commit | restart => exact absurd trivial hcovers

/-- A volume sync of two dirty files. The controller restarts between their pushes: the
`Fsync` has the epoch of the second one, succeeds, and the first file is marked clean. -/
def restartBetweenPushes : List SyncEvent :=
  let go : SyncEvent := .run 0 { order := [2, 3] }
  [.write 2 0 [7] 0, .write 3 0 [8] 0, .begin 0 .volume, go, go, go, go, .restart 6, go, go, go, go, go, go, go]

theorem restart_between_pushes_loses_file :
    (exec SyncsState.step (.start 0 5) restartBetweenPushes).map
      (fun s => (s.cache.getDirtyEntries, s.committed 2 0, s.committed 3 0, s.staged 2 0)) =
    some ([], none, some ⟨2, [8]⟩, none) := by
  decide +kernel

/-- **The controller has what was written.** In every run, restarts of the controller included,
what is staged or committed for a chunk was in the cache in that generation; a dirty chunk is at
least as new, and what is staged is at least as new as what is committed. -/
theorem versions_written (maxBytes : Int) (epoch : Nat) (events : List SyncEvent) :
    Throughout SyncsState.step VersionsOk (.start maxBytes epoch) events :=
  throughout_of_inv (I := SyncsInv) (fun _ h => h.data.versions) (fun _ _ _ h hs => (h.step hs).1)
    (.start maxBytes epoch) events

end InClusterStorage.Node
