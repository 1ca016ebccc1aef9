import InClusterStorage.Node.WriteTasks

/- A volume sync while some of the dirty files are gone (`syncVolumeBlocking` and
   `syncVolumeNonBlocking`, `fuse/fs.go`, which differ in the kind of the `Fsync` only).

   `Unlink` and `Rename` leave the dirty entries of the cache, so the sync goes on to push a
   file that the controller no longer has; its first `WriteFile` or `TruncateFile` answers
   `ENOENT`, and the loop returns. The `Fsync` and the marks come after the loop. So one
   removed file with something to send keeps every other file from being written back,
   wherever it comes in the order (`volume_sync_flushes_iff`). -/
namespace InClusterStorage.Node

open Bytes NodeCache List DirtyChunks Table Function

/-- The node's cache, and the controller's files with and without what is only staged. -/
structure VolumeFiles where
  cache : NodeCache
  staged : Nat → List UInt8
  committed : Nat → List UInt8

namespace VolumeFiles

variable (removed : Nat → Bool)

/-- The part of a push that sends a dirty size. -/
def sendSize (inode : Nat) (s : VolumeFiles) : VolumeFiles :=
  match s.cache.getDirtySize inode with
  | none => s
  | some (dirtySize, sizeGen) =>
    { cache := s.cache.markSizeClean inode sizeGen
      staged := update s.staged inode (resize dirtySize (s.staged inode))
      committed := update s.committed inode (resize dirtySize (s.committed inode)) }

/-- `pushDirtyChunksToStaging`; there is no list of marks where it fails with `ENOENT`. -/
def push (inode : Nat) (s : VolumeFiles) : VolumeFiles × Option (List Mark) :=
  if removed inode ∧ (s.cache.getDirtySize inode).isSome then (s, none)
  else
    let s := s.sendSize inode
    match s.cache.getDirtyChunks inode with
    | none => (s, some [])
    | some d =>
      let cache := d.beyond.foldl (fun cache i => cache.markChunkClean inode i ((d.gens.lookup i).getD 0)) s.cache
      if removed inode ∧ d.runs ≠ [] then ({ s with cache }, none)
      else
        ({ s with cache, staged := update s.staged inode (d.runs.foldl d.sendRun (s.staged inode)) },
          some (SyncPhase.marksOf inode d d.runs.flatten))

def pushAll : List Nat → List Mark → VolumeFiles → VolumeFiles × Option (List Mark)
  | [], allUncleaned, s => (s, some allUncleaned)
  | inode :: left, allUncleaned, s =>
    match s.push removed inode with
    | (s, none) => (s, none)
    | (s, some marks) => pushAll left (allUncleaned ++ marks) s

/-- The call, and whether it returns an error. `order` is the order of the dirty entries. -/
def syncVolume (diskCache : Bool) (order : List Nat) (s : VolumeFiles) : VolumeFiles × Bool :=
  match s.pushAll removed order [] with
  | (s, none) => (s, true)
  | (s, some allUncleaned) =>
    if allUncleaned = [] then (s, false)
    else
      let cache := allUncleaned.foldl (fun cache m => cache.markChunkClean m.inode m.chunk m.gen) s.cache
      ({ s with
          committed := s.staged
          cache := if diskCache then cache.invalidateAllClean else cache }, false)

/-! What there is to send. -/

def dirtyChunks (s : VolumeFiles) (inode : Nat) : List Nat :=
  match s.cache.getDirtyChunks inode with
  | none => []
  | some d => d.indices

/-- The file as its push leaves it. -/
def target (s : VolumeFiles) (inode : Nat) : List UInt8 :=
  match s.cache.getDirtyChunks inode with
  | none => (s.sendSize inode).staged inode
  | some d => d.runs.foldl d.sendRun ((s.sendSize inode).staged inode)

def HasToSend (s : VolumeFiles) (inode : Nat) : Prop :=
  (s.cache.getDirtySize inode).isSome ∨ s.dirtyChunks inode ≠ []

instance (s : VolumeFiles) (inode : Nat) : Decidable (s.HasToSend inode) := inferInstanceAs (Decidable (_ ∨ _))

/-- From `s` to `s'` the dirty chunks of the file were committed and marked clean. -/
def Flushed (s s' : VolumeFiles) (inode : Nat) : Prop :=
  s.dirtyChunks inode ≠ [] →
    s'.committed inode = s.target inode ∧ ∀ i ∈ s.dirtyChunks inode, s'.cache.markAt inode i = none

variable {removed} {s : VolumeFiles} {inode : Nat}

/-! One push. -/

/-- The file, in the cache and at the controller, is the same in both states. -/
structure SameAt (n : Nat) (s s' : VolumeFiles) : Prop where
  entry : s'.cache.entries.lookup n = s.cache.entries.lookup n
  staged : s'.staged n = s.staged n

theorem SameAt.refl (n : Nat) (s : VolumeFiles) : SameAt n s s := ⟨rfl, rfl⟩

variable {n : Nat} {s s' : VolumeFiles}

theorem SameAt.trans {s₁ s₂ s₃ : VolumeFiles} (h : SameAt n s₁ s₂) (h' : SameAt n s₂ s₃) : SameAt n s₁ s₃ :=
  ⟨h'.entry.trans h.entry, h'.staged.trans h.staged⟩

section

variable (h : SameAt n s s')
include h

theorem SameAt.getDirtyChunks : s'.cache.getDirtyChunks n = s.cache.getDirtyChunks n := by
  unfold NodeCache.getDirtyChunks
  rw [h.entry]

theorem SameAt.getDirtySize : s'.cache.getDirtySize n = s.cache.getDirtySize n := by
  unfold NodeCache.getDirtySize
  rw [h.entry]

theorem SameAt.dirtyChunks : s'.dirtyChunks n = s.dirtyChunks n := by
  unfold VolumeFiles.dirtyChunks
  rw [h.getDirtyChunks]

theorem SameAt.hasToSend : s'.HasToSend n ↔ s.HasToSend n := by
  unfold HasToSend
  rw [h.getDirtySize, h.dirtyChunks]

theorem SameAt.markAt (i : Nat) : s'.cache.markAt n i = s.cache.markAt n i := by
  unfold NodeCache.markAt
  rw [h.entry]

end

theorem sendSize_staged (s : VolumeFiles) (n : Nat) :
    (s.sendSize n).staged n = match s.cache.getDirtySize n with
      | none => s.staged n
      | some (dirtySize, _) => resize dirtySize (s.staged n) := by
  unfold sendSize
  cases s.cache.getDirtySize n with
  | none => rfl
  | some d => exact update_self ..

theorem SameAt.target (h : SameAt n s s') : s'.target n = s.target n := by
  unfold VolumeFiles.target
  rw [h.getDirtyChunks, sendSize_staged, sendSize_staged, h.getDirtySize, h.staged]

/-- What a push is to mark clean after the `Fsync`. -/
def marksFor (s : VolumeFiles) (inode : Nat) : List Mark :=
  match s.cache.getDirtyChunks inode with
  | none => []
  | some d => SyncPhase.marksOf inode d d.runs.flatten

theorem SameAt.marksFor (h : SameAt n s s') : s'.marksFor n = s.marksFor n := by
  unfold VolumeFiles.marksFor
  rw [h.getDirtyChunks]

theorem getDirtyChunks_markSizeClean (c : NodeCache) (inode gen n : Nat) :
    (c.markSizeClean inode gen).getDirtyChunks n = c.getDirtyChunks n := by
  unfold getDirtyChunks markSizeClean
  rw [lookup_modifyEntry]
  by_cases hn : n = inode
  · rw [if_pos hn]
    cases c.entries.lookup n with
    | none => rfl
    | some e =>
      simp only [Option.map_some, CachedEntry.markSizeClean]
      by_cases hgen : e.sizeGen ≤ gen
      · rw [if_pos hgen]
        rfl
      · rw [if_neg hgen]
  · rw [if_neg hn]

theorem markAt_markSizeClean (c : NodeCache) (inode gen n i : Nat) :
    (c.markSizeClean inode gen).markAt n i = c.markAt n i := by
  unfold markAt markSizeClean
  rw [lookup_modifyEntry]
  split
  · cases c.entries.lookup n with
    | none => rfl
    | some e => simp only [Option.map_some, Option.bind_some, CachedEntry.markSizeClean_dirtyChunks]
  · rfl

theorem sendSize_spec (s : VolumeFiles) (inode : Nat) :
    (∀ n, n ≠ inode → SameAt n s (s.sendSize inode)) ∧
      (∀ n, (s.sendSize inode).cache.getDirtyChunks n = s.cache.getDirtyChunks n) ∧
      ∀ n i, (s.sendSize inode).cache.markAt n i = s.cache.markAt n i := by
  unfold sendSize
  cases s.cache.getDirtySize inode with
  | none => exact ⟨fun n _ => .refl n s, fun _ => rfl, fun _ _ => rfl⟩
  | some d =>
    refine ⟨fun n hn => ⟨?_, update_of_ne hn ..⟩, getDirtyChunks_markSizeClean _ _ _, markAt_markSizeClean _ _ _⟩
    show (s.cache.modifyEntry inode _).entries.lookup n = _
    rw [lookup_modifyEntry, if_neg hn]

theorem foldl_markChunkClean_spec (inode : Nat) (gen : Nat → Nat) (indices : List Nat) (c : NodeCache) :
    (∀ n, n ≠ inode →
      (indices.foldl (fun c i => c.markChunkClean inode i (gen i)) c).entries.lookup n = c.entries.lookup n) ∧
      ∀ n i, i ∉ indices → (indices.foldl (fun c i => c.markChunkClean inode i (gen i)) c).markAt n i = c.markAt n i := by
  induction indices generalizing c with
  | nil => exact ⟨fun _ _ => rfl, fun _ _ _ => rfl⟩
  | cons j indices ih =>
    obtain ⟨hentries, hmarks⟩ := ih (c.markChunkClean inode j (gen j))
    refine ⟨fun n hn => ?_, fun n i hi => ?_⟩
    · rw [foldl_cons, hentries n hn, markChunkClean, lookup_modifyEntry, if_neg hn]
    · have hij : i ≠ j := fun heq => hi (heq ▸ mem_cons_self)
      rw [foldl_cons, hmarks n i fun hmem => hi (mem_cons_of_mem _ hmem), markAt_markChunkClean,
        if_neg]
      exact fun h => hij h.2.1

theorem runs_eq_nil {d : DirtyChunks} : d.runs = [] ↔ d.indices = [] := by
  refine ⟨fun h => ?_, fun h => ?_⟩
  · rw [← flatten_runs, h]
    rfl
  · unfold runs
    rw [h]
    rfl

/-- A push fails if and only if the file is gone and there is something to send; in any case
the dirty chunks of the file are still dirty. -/
theorem push_spec (removed : Nat → Bool) (inode : Nat) (s : VolumeFiles) :
    (∀ n, n ≠ inode → SameAt n s (s.push removed inode).1) ∧
      (∀ i ∈ s.dirtyChunks inode, (s.push removed inode).1.cache.markAt inode i = s.cache.markAt inode i) ∧
      (removed inode = true → s.HasToSend inode → (s.push removed inode).2 = none) ∧
      (¬ (removed inode = true ∧ s.HasToSend inode) →
        (s.push removed inode).2 = some (s.marksFor inode) ∧ (s.push removed inode).1.staged inode = s.target inode) := by
  obtain ⟨hsame, hcopies, hmarks⟩ := s.sendSize_spec inode
  unfold push
  split
  case isTrue hsize =>
    exact ⟨fun n _ => .refl n s, fun _ _ => rfl, fun _ _ => rfl, fun hfree => absurd ⟨hsize.1, .inl hsize.2⟩ hfree⟩
  rename_i hsize
  dsimp only
  rw [hcopies inode]
  unfold HasToSend dirtyChunks marksFor target
  cases hd : s.cache.getDirtyChunks inode with
  | none =>
    refine ⟨hsame, nofun, fun hgone hsend => ?_, fun _ => ⟨rfl, rfl⟩⟩
    exact absurd ⟨hgone, hsend.resolve_right fun hne => hne rfl⟩ hsize
  | some d =>
    obtain ⟨hentries, hkept⟩ := foldl_markChunkClean_spec inode (fun i => (d.gens.lookup i).getD 0) d.beyond
      (s.sendSize inode).cache
    have hother : ∀ n staged, n ≠ inode → staged n = (s.sendSize inode).staged n →
        SameAt n s { s.sendSize inode with
          cache := d.beyond.foldl (fun c i => c.markChunkClean inode i ((d.gens.lookup i).getD 0)) (s.sendSize inode).cache
          staged } := by
      intro n staged hn hstaged
      exact (hsame n hn).trans ⟨hentries n hn, hstaged⟩
    have hmark (i) (hi : i ∈ d.indices) :
        (d.beyond.foldl (fun c i => c.markChunkClean inode i ((d.gens.lookup i).getD 0)) (s.sendSize inode).cache).markAt
          inode i = s.cache.markAt inode i := by
      rw [hkept inode i, hmarks]
      intro hbeyond
      have hin := (mem_indices.mp hi).2
      have hout := of_decide_eq_true (mem_filter.mp hbeyond).2
      omega
    dsimp only
    split_ifs with hsend
    · refine ⟨fun n hn => hother n _ hn rfl, hmark, fun _ _ => rfl, fun hfree => ?_⟩
      exact absurd ⟨hsend.1, .inr fun hnil => hsend.2 (runs_eq_nil.mpr hnil)⟩ hfree
    refine ⟨fun n hn => hother n _ hn (update_of_ne hn ..), hmark, fun hgone hto => ?_, fun _ => ⟨rfl, update_self ..⟩⟩
    cases hto with
    | inl hdirty => exact absurd ⟨hgone, hdirty⟩ hsize
    | inr hne => exact absurd ⟨hgone, fun hnil => hne (runs_eq_nil.mp hnil)⟩ hsend

/-! The loop. -/

/-- The loop touches the files of its list only, and no dirty chunk is marked clean in it. -/
theorem pushAll_keeps (removed : Nat → Bool) (order : List Nat) (marks : List Mark) (s : VolumeFiles)
    (hnodup : order.Nodup) :
    (∀ n, n ∉ order → SameAt n s (s.pushAll removed order marks).1) ∧
      ∀ n, ∀ i ∈ s.dirtyChunks n, (s.pushAll removed order marks).1.cache.markAt n i = s.cache.markAt n i := by
  induction order generalizing marks s with
  | nil => exact ⟨fun n _ => .refl n s, fun _ _ _ => rfl⟩
  | cons inode left ih =>
    obtain ⟨hin, hnodup⟩ := nodup_cons.mp hnodup
    obtain ⟨hsame, hmarks, -, -⟩ := push_spec removed inode s
    have hone (n) (i) (hi : i ∈ s.dirtyChunks n) : (s.push removed inode).1.cache.markAt n i = s.cache.markAt n i := by
      by_cases hn : n = inode
      · subst hn
        exact hmarks i hi
      · exact (hsame n hn).markAt i
    unfold pushAll
    generalize s.push removed inode = result at hsame hone
    obtain ⟨s₁, out⟩ := result
    cases out with
    | none => exact ⟨fun n hn => hsame n fun heq => hn (heq ▸ mem_cons_self), hone⟩
    | some sent =>
      obtain ⟨hsame', hmarks'⟩ := ih (marks ++ sent) s₁ hnodup
      refine ⟨fun n hn => ?_, fun n i hi => ?_⟩
      · exact (hsame n fun heq => hn (heq ▸ mem_cons_self)).trans
          (hsame' n fun hmem => hn (mem_cons_of_mem _ hmem))
      · by_cases hn : n = inode
        · -- the rest of the loop does not come back to the file
          exact ((hsame' n (hn ▸ hin)).markAt i).trans (hone n i hi)
        · exact (hmarks' n i ((hsame n hn).dirtyChunks ▸ hi)).trans (hone n i hi)

/-- A removed file with something to send ends the loop, wherever it is. -/
theorem pushAll_fails {order : List Nat} (hnodup : order.Nodup) (hn : n ∈ order) (hgone : removed n = true)
    (hsend : s.HasToSend n) (marks : List Mark) : (s.pushAll removed order marks).2 = none := by
  induction order generalizing marks s with
  | nil => cases hn
  | cons inode left ih =>
    obtain ⟨hin, hnodup⟩ := nodup_cons.mp hnodup
    obtain ⟨hsame, -, hfails, -⟩ := push_spec removed inode s
    unfold pushAll
    by_cases heq : n = inode
    · subst heq
      have hnone := hfails hgone hsend
      generalize s.push removed n = result at hnone
      obtain ⟨s₁, out⟩ := result
      subst hnone
      rfl
    · have hleft := (mem_cons.mp hn).resolve_left heq
      have hsame := hsame n heq
      generalize s.push removed inode = result at hsame
      obtain ⟨s₁, out⟩ := result
      cases out with
      | none => rfl
      | some sent => exact ih hnodup hleft (hsame.hasToSend.mpr hsend) _

/-- Without such a file, all files of the list are pushed. -/
theorem pushAll_succeeds {order : List Nat} (hnodup : order.Nodup)
    (hfree : ∀ n ∈ order, ¬ (removed n = true ∧ s.HasToSend n)) (marks : List Mark) :
    (s.pushAll removed order marks).2 = some (marks ++ order.flatMap s.marksFor) ∧
      ∀ n ∈ order, (s.pushAll removed order marks).1.staged n = s.target n := by
  induction order generalizing marks s with
  | nil => exact ⟨congrArg some (append_nil marks).symm, nofun⟩
  | cons inode left ih =>
    obtain ⟨hin, hnodup'⟩ := nodup_cons.mp hnodup
    obtain ⟨hsame, -, -, hok⟩ := push_spec removed inode s
    obtain ⟨hsent, htarget⟩ := hok (hfree inode mem_cons_self)
    unfold pushAll
    generalize s.push removed inode = result at hsame hsent htarget
    obtain ⟨s₁, out⟩ := result
    dsimp only at hsent hsame htarget
    subst hsent
    have hne : ∀ n ∈ left, n ≠ inode := fun n hn heq => hin (heq ▸ hn)
    obtain ⟨hmarks, hstaged⟩ := ih hnodup'
      (fun n hn h => hfree n (mem_cons_of_mem _ hn) ⟨h.1, (hsame n (hne n hn)).hasToSend.mp h.2⟩)
      (marks ++ s.marksFor inode)
    refine ⟨?_, fun n hn => ?_⟩
    · rw [hmarks, flatMap_cons, append_assoc]
      congr 2
      exact congrArg (s.marksFor inode ++ ·) (flatMap_congr fun n hn => (hsame n (hne n hn)).marksFor)
    · cases mem_cons.mp hn with
      | inl heq =>
        subst heq
        rw [← htarget]
        exact ((pushAll_keeps removed left _ s₁ hnodup').1 n hin).staged
      | inr hleft => exact (hstaged n hleft).trans (hsame n (hne n hleft)).target

/-! The call. -/

theorem mark_of_mem_dirtyChunks {i : Nat} (hi : i ∈ s.dirtyChunks n) :
    ∃ gen, s.cache.markAt n i = some gen ∧ ⟨n, i, gen⟩ ∈ s.marksFor n := by
  unfold dirtyChunks at hi
  unfold marksFor
  cases hd : s.cache.getDirtyChunks n with rw [hd] at hi
  | none =>
    cases hi
  | some d =>
    obtain ⟨e, hl, rfl⟩ := of_getDirtyChunks hd
    obtain ⟨hchunk, -⟩ := mem_indices.mp hi
    simp only [CachedEntry.getDirtyChunks, lookup_select] at hchunk
    split at hchunk
    case isFalse => cases hchunk
    case isTrue hmarked =>
      obtain ⟨gen, hgen⟩ := Option.isSome_iff_exists.mp hmarked
      refine ⟨gen, (markAt_of_lookup hl).trans hgen, mem_map.mpr ⟨i, ?_, ?_⟩⟩
      · rwa [flatten_runs]
      · simp only [CachedEntry.getDirtyChunks, lookup_select, hchunk, if_true, hgen, Option.getD_some]

theorem mem_getDirtyEntries {c : NodeCache} : n ∈ c.getDirtyEntries ↔ ∃ e, c.entries.lookup n = some e ∧ e.Dirty := by
  unfold getDirtyEntries
  rw [mem_map]
  refine ⟨fun ⟨x, hx, heq⟩ => ?_, fun ⟨e, hl, hdirty⟩ => ?_⟩
  · obtain ⟨hmem, hdirty⟩ := mem_filter.mp hx
    exact ⟨x.2, heq ▸ mem_entries.mp hmem, of_decide_eq_true hdirty⟩
  · exact ⟨⟨n, e⟩, mem_filter.mpr ⟨mem_entries.mpr hl, decide_eq_true hdirty⟩, rfl⟩

theorem getDirtyEntries_nodup (c : NodeCache) : c.getDirtyEntries.Nodup := by
  have hkeys : (c.entries.entries.map Sigma.fst).Nodup := c.entries.nodupKeys
  exact hkeys.sublist (filter_sublist.map Sigma.fst)

/-- A file with something to send is among the dirty entries. -/
theorem mem_getDirtyEntries_of_hasToSend (h : s.HasToSend n) : n ∈ s.cache.getDirtyEntries := by
  rw [mem_getDirtyEntries]
  cases h with
  | inl hsize =>
    unfold getDirtySize at hsize
    split at hsize
    · cases hsize
    · next e hl =>
      refine ⟨e, hl, .inr fun hzero => ?_⟩
      rw [if_pos hzero] at hsize
      cases hsize
  | inr hchunks =>
    obtain ⟨i, hi⟩ := exists_mem_of_ne_nil _ hchunks
    obtain ⟨gen, hmark, -⟩ := mark_of_mem_dirtyChunks hi
    obtain ⟨e, hl, hgen⟩ := Option.bind_eq_some_iff.mp hmark
    exact ⟨e, hl, .of_mark hgen⟩

/-- `completeSync` for all files: a chunk is clean if its mark is not newer than what was sent. -/
theorem markAt_foldl_marks (marks : List Mark) (c : NodeCache) {i gen : Nat} (hm : ⟨n, i, gen⟩ ∈ marks)
    (hle : ∀ gen', c.markAt n i = some gen' → gen' ≤ gen) :
    (marks.foldl (fun c m => c.markChunkClean m.inode m.chunk m.gen) c).markAt n i = none := by
  have hgone : ∀ (marks : List Mark) (c : NodeCache), c.markAt n i = none →
      (marks.foldl (fun c m => c.markChunkClean m.inode m.chunk m.gen) c).markAt n i = none := by
    intro marks
    induction marks with
    | nil => exact fun _ h => h
    | cons m marks ih =>
      intro c hnone
      refine ih _ ?_
      rw [markAt_markChunkClean, hnone, ite_self]
  induction marks generalizing c with
  | nil => cases hm
  | cons m marks ih =>
    rw [foldl_cons]
    cases mem_cons.mp hm with
    | inl heq =>
      subst heq
      apply hgone
      rw [markAt_markChunkClean]
      cases hmark : c.markAt n i with
      | none => exact ite_self _
      | some gen' => exact if_pos ⟨rfl, rfl, gen', hle gen' hmark, rfl⟩
    | inr hmem =>
      refine ih _ hmem fun gen' hgen' => hle gen' ?_
      rw [markAt_markChunkClean] at hgen'
      split at hgen'
      · cases hgen'
      · exact hgen'

/-- A volume sync commits and marks clean the dirty chunks of every file that exists, if and
only if no removed file has anything to send, or no file that exists has a dirty chunk. -/
theorem volume_sync_flushes_iff (removed : Nat → Bool) (diskCache : Bool) {order : List Nat} {s : VolumeFiles}
    (horder : order.Perm s.cache.getDirtyEntries) :
    (∀ n, removed n = false → s.Flushed (s.syncVolume removed diskCache order).1 n) ↔
      (∀ n, removed n = true → ¬ s.HasToSend n) ∨ ∀ n, removed n = false → s.dirtyChunks n = [] := by
  have hnodup : order.Nodup := horder.nodup_iff.mpr (getDirtyEntries_nodup _)
  refine ⟨fun hflushed => ?_, fun hcond => ?_⟩
  · by_contra hblocked
    push Not at hblocked
    obtain ⟨⟨n, hgone, hsend⟩, n', hexists, hne⟩ := hblocked
    obtain ⟨i, hi⟩ := exists_mem_of_ne_nil _ hne
    obtain ⟨gen, hmark, -⟩ := mark_of_mem_dirtyChunks hi
    have hfails := pushAll_fails hnodup (horder.mem_iff.mpr (mem_getDirtyEntries_of_hasToSend hsend)) hgone hsend []
    have hstill := (pushAll_keeps removed order [] s hnodup).2 n' i hi
    have hclean := (hflushed n' hexists hne).2 i hi
    unfold syncVolume at hclean
    generalize s.pushAll removed order [] = result at hfails hstill hclean
    obtain ⟨s₁, out⟩ := result
    subst hfails
    have hnone : s.cache.markAt n' i = none := hstill.symm.trans hclean
    rw [hnone] at hmark
    cases hmark
  · intro n hexists hne
    cases hcond with
    | inr hnone => exact absurd (hnone n hexists) hne
    | inl hfree =>
      obtain ⟨hmarks, hstaged⟩ := pushAll_succeeds hnodup (fun n' _ h => hfree n' h.1 h.2) []
      obtain ⟨-, hkept⟩ := pushAll_keeps removed order [] s hnodup
      have hn : n ∈ order := horder.mem_iff.mpr (mem_getDirtyEntries_of_hasToSend (.inr hne))
      have hmem (i) (hi : i ∈ s.dirtyChunks n) : ∃ gen, s.cache.markAt n i = some gen ∧
          ⟨n, i, gen⟩ ∈ [] ++ order.flatMap s.marksFor := by
        obtain ⟨gen, hmark, hfor⟩ := mark_of_mem_dirtyChunks hi
        exact ⟨gen, hmark, mem_flatMap.mpr ⟨n, hn, hfor⟩⟩
      unfold syncVolume
      generalize [] ++ order.flatMap s.marksFor = allUncleaned at hmarks hmem
      generalize s.pushAll removed order [] = result at hmarks hstaged hkept
      obtain ⟨s₁, out⟩ := result
      dsimp only at hmarks hstaged hkept
      subst hmarks
      have hsome : allUncleaned ≠ [] := by
        obtain ⟨i, hi⟩ := exists_mem_of_ne_nil _ hne
        obtain ⟨gen, -, hfor⟩ := hmem i hi
        exact ne_nil_of_mem hfor
      dsimp only
      rw [if_neg hsome]
      refine ⟨hstaged n hn, fun i hi => ?_⟩
      obtain ⟨gen, hmark, hfor⟩ := hmem i hi
      have hclean := markAt_foldl_marks allUncleaned s₁.cache hfor fun gen' hgen' => by
        rw [hkept n i hi, hmark, Option.some.injEq] at hgen'
        exact le_of_eq hgen'.symm
      split
      · rwa [markAt_of_kept ((sheds_invalidateAllClean _).lookup n)]
      · exact hclean

end VolumeFiles

/-- Two files with one dirty byte each. -/
def twoDirtyFiles : VolumeFiles where
  cache := ((NodeCache.new 0).writeAt 2 0 [7] 0).writeAt 3 0 [8] 0
  staged := fun _ => [0]
  committed := fun _ => [0]

/-- File 4 is gone as well, but it is clean. -/
theorem volume_sync_flushes_both :
    let s : VolumeFiles := { twoDirtyFiles with cache := twoDirtyFiles.cache.putChunk 4 0 4 1 [9] 2 0 }
    let s' := (s.syncVolume (· = 4) false [2, 3]).1
    s.cache.getSize 4 = some 1 ∧ s.Flushed s' 2 ∧ s.Flushed s' 3 := by
  intro s s'
  have horder : [2, 3].Perm s.cache.getDirtyEntries := by decide +kernel
  have hclean : ∀ n, decide (n = 4) = true → ¬ s.HasToSend n := by
    intro n hn
    obtain rfl := of_decide_eq_true hn
    decide +kernel
  have hflushed := (VolumeFiles.volume_sync_flushes_iff (· = 4) false horder).mpr (.inl hclean)
  exact ⟨by decide +kernel, hflushed 2 rfl, hflushed 3 rfl⟩

/-- File 2 is gone. In whichever order the two are pushed, file 3 is neither committed nor
marked clean. -/
theorem removed_file_blocks_sync :
    [[2, 3], [3, 2]].map (fun order =>
      let r := twoDirtyFiles.syncVolume (fun n => n = 2) false order
      (r.2, r.1.committed 3, r.1.cache.markAt 3 0, twoDirtyFiles.cache.getDirtyEntries.isPerm order)) =
    [(true, [0], some 2, true), (true, [0], some 2, true)] := by
  decide +kernel

end InClusterStorage.Node
