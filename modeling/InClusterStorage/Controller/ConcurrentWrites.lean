import InClusterStorage.Lib.Runs
import InClusterStorage.Controller.FileRefinement

/- Writes to one file beside its syncs.

   `WriteFile` has four kinds of critical sections: it loads the inode, decides which
   base chunks it needs, reads them one by one, and merges its data into the staged
   chunks. A sync has three: its snapshot, its commit and `finishSync`. All of them
   interleave.

   1. `writes_kept`: in a run whose steps meet `Separate`, the file after one more sync
      is the initial content with the writes applied in the order of their last
      sections.
   2. `writes_lost`: without the condition, a run that merges a base chunk read before
      another write was committed loses that write; a run that merges after
      `finishSync` dropped the chunk it meant to find staged loses the chunk; and a
      sync that commits a small file inline while another chunk is staged hides that
      chunk from every later read. -/
namespace InClusterStorage.Controller

open Bytes List File Runs

/-! The sections. -/

inductive WriteStage where
  | loaded
  /-- base chunks are decided; those in the list are not read yet -/
  | reading (needed : List Nat) (baseChunks : AList fun _ : Nat => List UInt8)

structure WriteCall where
  write : Write
  node : CachedInode
  stage : WriteStage

structure SyncCall where
  snapshot : Snapshot
  committed : Bool

structure WriteState where
  file : File
  /-- the calls between their first and their last section -/
  writes : List WriteCall := []
  /-- the syncs between their snapshot and `finishSync` -/
  syncs : List SyncCall := []
  /-- the writes that are merged, in order -/
  merged : List Write := []

inductive WriteEvent where
  | load (w : Write)
  | plan (call : Nat)
  | readBaseChunk (call : Nat)
  | stage (call : Nat)
  | snapshot
  | commit (sync : Nat)
  | finish (sync : Nat)
  /-- `finishSync` with an error, before or after the commit -/
  | fail (sync : Nat)
  deriving DecidableEq, Repr

namespace WriteState

def step (limits : Limits) (s : WriteState) : WriteEvent → Option WriteState
  | .load w => some { s with writes := s.writes ++ [⟨w, s.file.getOrLoadInode, .loaded⟩] }
  | .plan call =>
    match s.writes[call]? with
    | some ⟨w, node, .loaded⟩ =>
      some { s with writes := s.writes.set call ⟨w, node, .reading (s.file.neededBaseChunks limits node w) ∅⟩ }
    | _ => none
  | .readBaseChunk call =>
    match s.writes[call]? with
    | some ⟨w, node, .reading (index :: needed) baseChunks⟩ =>
      let read := s.file.readBaseChunk (node, baseChunks) index
      some { s with writes := s.writes.set call ⟨w, read.1, .reading needed read.2⟩ }
    | _ => none
  | .stage call =>
    match s.writes[call]? with
    | some ⟨w, node, .reading [] baseChunks⟩ =>
      some { s with
        file := s.file.stageWrite limits node baseChunks w
        writes := s.writes.eraseIdx call
        merged := s.merged ++ [w] }
    | _ => none
  | .snapshot =>
    if s.file.stagedChunks.entries.length = 0 then none
    else some { s with file := s.file.sealActivePack, syncs := s.syncs ++ [⟨s.file.snapshot, false⟩] }
  | .commit sync =>
    match s.syncs[sync]? with
    | some ⟨snap, false⟩ =>
      some { s with file := s.file.appendSyncRecords limits snap, syncs := s.syncs.set sync ⟨snap, true⟩ }
    | _ => none
  | .finish sync =>
    match s.syncs[sync]? with
    | some ⟨snap, true⟩ => some { s with file := s.file.finishSync snap, syncs := s.syncs.eraseIdx sync }
    | _ => none
  | .fail sync =>
    match s.syncs[sync]? with
    | some _ => some { s with syncs := s.syncs.eraseIdx sync }
    | none => none

/-- One more sync leaves the file with the content and the writes merged so far. -/
def Kept (limits : Limits) (content : List UInt8) (s : WriteState) : Prop :=
  s.syncs = [] →
    (s.file.fsync limits).row.size = (s.merged.foldl (fun c w => splice c w.offset w.data) content).length ∧
      ∀ offset length, 0 < length → (s.file.fsync limits).readFile limits offset length =
        slice (s.merged.foldl (fun c w => splice c w.offset w.data) content) offset (offset + length)

/-- Writes and syncs keep apart: writes are not empty; a snapshot is taken while no
other sync is running; a commit finds no write between its first and its last section,
`finishSync` none that has decided on its base chunks; and while a sync of a file small
enough to be inline is running, only writes that end in the first chunk are merged. -/
def Separate (limits : Limits) (s : WriteState) : WriteEvent → Prop
  | .load w => w.data ≠ []
  | .snapshot => s.syncs = []
  | .commit _ => s.writes = []
  | .finish _ => ∀ call ∈ s.writes, (call.stage matches .loaded) = true
  | .stage call => ∀ c ∈ s.writes[call]?, ∀ sync ∈ s.syncs,
      sync.snapshot.size ≤ limits.maxInlineLen → c.write.stop ≤ limits.chunkSizeOf s.file.row
  | _ => True

instance (limits : Limits) (s : WriteState) (e : WriteEvent) : Decidable (s.Separate limits e) := by
  unfold Separate
  split <;> infer_instance

end WriteState

/-! A merge beside other calls. -/

section Merge

variable {limits : Limits} {cs : Nat} {f : File} {node : CachedInode}
  {baseChunks : AList fun _ : Nat => List UInt8} {w : Write} {snap : Snapshot}

theorem stageWrite_frame (limits : Limits) (f : File) (node : CachedInode)
    (baseChunks : AList fun _ : Nat => List UInt8) (w : Write) :
    (f.stageWrite limits node baseChunks w).row = f.row ∧
      (f.stageWrite limits node baseChunks w).chunkRows = f.chunkRows ∧
      (f.stageWrite limits node baseChunks w).packID = f.packID := by
  rw [stageWrite_eq]
  exact ⟨rfl, rfl, rfl⟩

variable (h : WellFormed limits cs f) (hfresh : Fresh cs f node baseChunks w)
include h hfresh

/-- What is staged after a merge was staged before, or is in the current pack. -/
theorem Fresh.staged_new {j : Nat} {r : StagedChunkReference}
    (hr : (f.stageWrite limits node baseChunks w).stagedChunks.lookup j = some r) :
    f.stagedChunks.lookup j = some r ∨ r.packID = f.packID ∧ (j ∈ w.chunks cs ∨ j = 0) := by
  rw [hfresh.lookup_stageWrite h] at hr
  split at hr
  case isTrue hj =>
    cases hr
    exact .inr ⟨rfl, .inl hj⟩
  case isFalse =>
    rw [f.lookup_stageInline] at hr
    split at hr
    case isTrue hinline =>
      cases hr
      exact .inr ⟨rfl, .inr hinline.2⟩
    case isFalse => exact .inl hr

theorem Fresh.staged_kept {j : Nat} {r : StagedChunkReference} (hr : f.stagedChunks.lookup j = some r) :
    ∃ r', (f.stageWrite limits node baseChunks w).stagedChunks.lookup j = some r' := by
  rw [hfresh.lookup_stageWrite h, f.lookup_stageInline, hr]
  split
  · exact ⟨_, rfl⟩
  split
  · exact ⟨_, rfl⟩
  · exact ⟨r, rfl⟩

variable (hw : w.data ≠ [])
include hw

theorem Fresh.staged_first : ∃ j r, (f.stageWrite limits node baseChunks w).stagedChunks.lookup j = some r ∧
    r.packID = (f.stageWrite limits node baseChunks w).packID := by
  have hsplit := div_mul_add_mod h.rows.pos w.offset
  have hpos := length_pos_iff.mpr hw
  have hmem : w.offset / cs ∈ w.chunks cs :=
    (Write.mem_chunks h.rows.pos hw).mpr (by rw [Write.stop]; omega)
  exact ⟨w.offset / cs, _, (hfresh.lookup_stageWrite h _).trans (if_pos hmem),
    (stageWrite_frame limits f node baseChunks w).2.2.symm⟩

/-- A write that ends in the first chunk stages no other. -/
theorem Fresh.staged_small (hstop : w.stop ≤ cs)
    (hsmall : ∀ i r, f.stagedChunks.lookup i = some r → i = 0) {j : Nat} {r : StagedChunkReference}
    (hr : (f.stageWrite limits node baseChunks w).stagedChunks.lookup j = some r) : j = 0 := by
  rcases hfresh.staged_new h hr with hold | ⟨_, hmem | hzero⟩
  · exact hsmall j r hold
  · have hrange := (Write.mem_chunks h.rows.pos hw).mp hmem
    by_contra hj
    have := Nat.mul_le_mul_right cs (Nat.pos_of_ne_zero hj)
    omega
  · exact hzero

variable (hstop : snap.size ≤ limits.maxInlineLen → w.stop ≤ cs)
include hstop

/-- A sync that is not committed yet does not mind a merge. -/
theorem Taken.stageWrite (ht : Taken limits cs f snap) :
    Taken limits cs (f.stageWrite limits node baseChunks w) snap := by
  obtain ⟨hrow, hrows, hpack⟩ := stageWrite_frame limits f node baseChunks w
  have hsize := hfresh.size_stageWrite h
  constructor
  case ok => exact ht.ok
  case packs => exact hpack ▸ ht.packs
  case kept =>
    intro i r hr
    obtain ⟨r', hr'⟩ := ht.kept i r hr
    exact hfresh.staged_kept h hr'
  case before =>
    intro i r hr hlt
    rcases hfresh.staged_new h hr with hold | ⟨hnew, _⟩
    · exact ht.before i r hold (hpack ▸ hlt)
    · omega
  case rowSize => exact hrow ▸ ht.rowSize
  case sized => exact .inl (hfresh.staged_first h hw)
  case size =>
    have := ht.size
    omega
  case inline => exact inlineData_congr (congrArg (AList.lookup 0) hrows) ▸ ht.inline
  case small =>
    intro hsmall i r hr
    exact hfresh.staged_small h hw (hstop hsmall) (ht.small hsmall) hr

/-- Nor does one that is. -/
theorem Written.stageWrite (ht : Written limits f snap) :
    Written limits (f.stageWrite limits node baseChunks w) snap := by
  obtain ⟨hrow, hrows, hpack⟩ := stageWrite_frame limits f node baseChunks w
  constructor
  case packs => exact hpack ▸ ht.packs
  case rowSize => exact hrow ▸ ht.rowSize
  case sized => exact .inl (hfresh.staged_first h hw)
  case committed =>
    intro i r hr
    rw [← ht.committed i r hr]
    exact committed_congr hrows i
  case inline => exact inlineData_congr (congrArg (AList.lookup 0) hrows) ▸ ht.inline
  case small =>
    intro hsmall i r hr
    exact hfresh.staged_small h hw (hstop hsmall) (ht.small hsmall) hr

end Merge

/-! Loaded inodes of other calls. -/

section Others

variable {cs : Nat} {f f' : File} {node : CachedInode} {needed : List Nat}
  {baseChunks : AList fun _ : Nat => List UInt8} {w : Write}

def File.RowsKept (f f' : File) : Prop := f'.row = f.row ∧ f'.chunkRows = f.chunkRows

theorem rowsKept_finishSync (h : f.Sized) (snap : Snapshot) : f.RowsKept (f.finishSync snap) := by
  rw [(restaged_finishSync h snap).frame]
  exact ⟨rfl, rfl⟩

theorem Loaded.of_rows (h : Loaded f node) (hkept : f.RowsKept f') : Loaded f' node := by
  refine ⟨h.row.trans hkept.1.symm, ?_, ?_⟩
  · exact h.inlineData.trans (inlineData_congr (by rw [hkept.2])).symm
  · intro i
    exact (h.chunks i).trans (blob_congr (by rw [hkept.2])).symm

/-- What a call has read stays right while the rows stay and nothing is dropped. -/
theorem Reading.of_rows (h : Reading cs f node needed baseChunks w) (hrows : f.RowsKept f')
    (hkept : ∀ i, f'.stagedChunks.lookup i = none → f.stagedChunks.lookup i = none) :
    Reading cs f' node needed baseChunks w := by
  refine ⟨h.loaded.of_rows hrows, h.nodup, h.unread, ?_⟩
  intro i hi hs hnot
  rw [committed_congr hrows.2]
  exact h.base i hi (hkept i hs) hnot

end Others

/-! The invariant. -/

/-- What a call has read is what the rows hold. -/
def WriteCall.Ok (cs : Nat) (f : File) (c : WriteCall) : Prop :=
  c.write.data ≠ [] ∧
    match c.stage with
    | .loaded => Loaded f c.node
    | .reading needed baseChunks => Reading cs f c.node needed baseChunks c.write

/-- What holds while a sync is running; no two are. -/
inductive SyncsOk (limits : Limits) (cs : Nat) (f : File) : List SyncCall → Prop where
  | none : SyncsOk limits cs f []
  | taken {snap : Snapshot} (h : Taken limits cs f snap) : SyncsOk limits cs f [⟨snap, false⟩]
  | written {snap : Snapshot} (h : Written limits f snap) : SyncsOk limits cs f [⟨snap, true⟩]

structure WritesOk (limits : Limits) (cs : Nat) (content : List UInt8) (s : WriteState) : Prop where
  represents : Represents limits cs s.file (s.merged.foldl (fun c w => splice c w.offset w.data) content)
  writes : ∀ c ∈ s.writes, c.Ok cs s.file
  syncs : SyncsOk limits cs s.file s.syncs

theorem WriteCall.Ok.of_rows {cs : Nat} {f f' : File} {c : WriteCall} (h : c.Ok cs f) (hrows : f.RowsKept f')
    (hkept : ∀ i, f'.stagedChunks.lookup i = none → f.stagedChunks.lookup i = none) : c.Ok cs f' := by
  obtain ⟨hw, hstage⟩ := h
  refine ⟨hw, ?_⟩
  cases hc : c.stage with rw [hc] at hstage
  | loaded =>
    exact Loaded.of_rows hstage hrows
  | reading needed baseChunks =>
    exact Reading.of_rows hstage hrows hkept

section Syncs

variable {limits : Limits} {cs : Nat} {f : File} {syncs : List SyncCall}

theorem SyncsOk.eq_singleton {sync : Nat} {call : SyncCall} (h : SyncsOk limits cs f syncs)
    (hsync : syncs[sync]? = some call) : syncs = [call] ∧ sync = 0 := by
  cases h with
  | none => simp at hsync
  | taken _ | written _ =>
    cases sync with
    | zero => exact ⟨by simpa using hsync, rfl⟩
    | succ n => simp at hsync

theorem SyncsOk.stageWrite {node : CachedInode} {baseChunks : AList fun _ : Nat => List UInt8} {w : Write}
    (h : SyncsOk limits cs f syncs) (hwf : WellFormed limits cs f) (hw : w.data ≠ [])
    (hfresh : Fresh cs f node baseChunks w)
    (hstop : ∀ sync ∈ syncs, sync.snapshot.size ≤ limits.maxInlineLen → w.stop ≤ cs) :
    SyncsOk limits cs (f.stageWrite limits node baseChunks w) syncs := by
  cases h with
  | none => exact .none
  | taken htaken => exact .taken (htaken.stageWrite hwf hfresh hw (hstop _ mem_cons_self))
  | written hwritten => exact .written (hwritten.stageWrite hwf hfresh hw (hstop _ mem_cons_self))

end Syncs

section Steps

variable {limits : Limits} {cs : Nat} {content : List UInt8} {s s' : WriteState}

section

variable (h : WritesOk limits cs content s)
include h

theorem writes_set {call : Nat} {c : WriteCall} (hc : c.Ok cs s.file) :
    WritesOk limits cs content { s with writes := s.writes.set call c } := by
  refine ⟨h.represents, ?_, h.syncs⟩
  intro c' hc'
  rcases mem_or_eq_of_mem_set hc' with hold | rfl
  · exact h.writes c' hold
  · exact hc

theorem WritesOk.stage {call : Nat} {w : Write} {node : CachedInode}
    {baseChunks : AList fun _ : Nat => List UInt8} (hcall : s.writes[call]? = some ⟨w, node, .reading [] baseChunks⟩)
    (hstop : ∀ sync ∈ s.syncs, sync.snapshot.size ≤ limits.maxInlineLen → w.stop ≤ cs) :
    WritesOk limits cs content { s with
      file := s.file.stageWrite limits node baseChunks w
      writes := s.writes.eraseIdx call
      merged := s.merged ++ [w] } := by
  have hwf := h.represents.wellFormed
  obtain ⟨hw, hreading⟩ := h.writes _ (mem_of_getElem? hcall)
  have hfresh : Fresh cs s.file node baseChunks w := Reading.fresh hreading
  obtain ⟨hrow, hrows, _⟩ := stageWrite_frame limits s.file node baseChunks w
  constructor
  case represents =>
    refine ⟨hfresh.stageWrite_wellFormed hwf hw, ?_, ?_⟩
    · rw [foldl_append, hfresh.size_stageWrite hwf, ← h.represents.size]
      exact length_splice
    · intro p
      rw [foldl_append, hfresh.currentByte_stageWrite hwf hw, ← h.represents.bytes]
      exact byteAt_splice
  case writes =>
    intro c hc
    apply (h.writes c (mem_of_mem_eraseIdx hc)).of_rows ⟨hrow, hrows⟩
    intro i hnone
    cases hs : s.file.stagedChunks.lookup i with
    | none => rfl
    | some r =>
      obtain ⟨r', hr'⟩ := hfresh.staged_kept hwf hs
      exact absurd (hnone.symm.trans hr') (by simp)
  case syncs => exact h.syncs.stageWrite hwf hw hfresh hstop

theorem WritesOk.snapshot (hstaged : s.file.stagedChunks.entries.length ≠ 0)
    (hidle : s.syncs = []) :
    WritesOk limits cs content
      { s with file := s.file.sealActivePack, syncs := s.syncs ++ [⟨s.file.snapshot, false⟩] } := by
  have hwf := h.represents.wellFormed
  refine ⟨⟨hwf.sealActivePack, h.represents.size, h.represents.bytes⟩, ?_, ?_⟩
  · exact fun c hc => (h.writes c hc).of_rows ⟨rfl, rfl⟩ fun _ hnone => hnone
  · show SyncsOk limits cs s.file.sealActivePack (s.syncs ++ [⟨s.file.snapshot, false⟩])
    rw [hidle]
    exact .taken (Taken.of_snapshot hwf (Nat.pos_of_ne_zero hstaged))

end

theorem Represents.of_same {f f' : File} {content : List UInt8} (h : Represents limits cs f content)
    (hwf : WellFormed limits cs f') (hsame : SameCurrent f f') : Represents limits cs f' content := by
  refine ⟨hwf, h.size.trans hsame.size.symm, ?_⟩
  intro p
  rw [h.bytes, hsame.currentByte]

section

variable (h : WritesOk limits cs content s)
include h

theorem WritesOk.commit {sync : Nat} {snap : Snapshot}
    (hsync : s.syncs[sync]? = some ⟨snap, false⟩) (hwrites : s.writes = []) :
    WritesOk limits cs content
      { s with file := s.file.appendSyncRecords limits snap, syncs := s.syncs.set sync ⟨snap, true⟩ } := by
  obtain ⟨hsyncs, rfl⟩ := h.syncs.eq_singleton hsync
  have hok := h.syncs
  rw [hsyncs] at hok
  cases hok with
  | taken htaken =>
    obtain ⟨hwf, hwritten, hsame⟩ := htaken.commit h.represents.wellFormed
    refine ⟨h.represents.of_same hwf hsame, ?_, ?_⟩
    · intro c hc
      exact absurd (hwrites ▸ hc) not_mem_nil
    · show SyncsOk limits cs (s.file.appendSyncRecords limits snap) (s.syncs.set 0 ⟨snap, true⟩)
      rw [hsyncs]
      exact .written hwritten

theorem WritesOk.finish {sync : Nat} {snap : Snapshot} (hsync : s.syncs[sync]? = some ⟨snap, true⟩)
    (hwrites : ∀ call ∈ s.writes, (call.stage matches .loaded) = true) :
    WritesOk limits cs content { s with file := s.file.finishSync snap, syncs := s.syncs.eraseIdx sync } := by
  obtain ⟨hsyncs, rfl⟩ := h.syncs.eq_singleton hsync
  have hok := h.syncs
  rw [hsyncs] at hok
  cases hok with
  | written hwritten =>
    have hwf := h.represents.wellFormed
    obtain ⟨hwf', hsame⟩ := hwritten.finish hwf
    refine ⟨h.represents.of_same hwf' hsame, ?_, ?_⟩
    · -- a call that has only loaded the inode does not depend on what is staged
      intro c hc
      obtain ⟨hw, hstage⟩ := h.writes c hc
      have hloaded := hwrites c hc
      refine ⟨hw, ?_⟩
      cases hc' : c.stage with
      | reading needed baseChunks => simp [hc'] at hloaded
      | loaded =>
        rw [hc'] at hstage
        exact Loaded.of_rows hstage (rowsKept_finishSync hwf.staged.sized snap)
    · show SyncsOk limits cs (s.file.finishSync snap) (s.syncs.eraseIdx 0)
      rw [hsyncs]
      exact .none

theorem WritesOk.step {e : WriteEvent} (hok : WriteState.Separate limits s e)
    (hs : s.step limits e = some s') : WritesOk limits cs content s' := by
  have hrows := h.represents.wellFormed.rows
  cases e with simp only [WriteState.step] at hs
  | load w =>
    cases hs
    refine ⟨h.represents, ?_, h.syncs⟩
    refine forall_mem_append.mpr ⟨h.writes, forall_mem_singleton.mpr ?_⟩
    exact ⟨hok, hrows.loaded_getOrLoadInode⟩
  | plan call =>
    split at hs
    case h_1 w node hcall =>
      cases hs
      obtain ⟨hw, hload⟩ := h.writes _ (mem_of_getElem? hcall)
      exact writes_set h ⟨hw, Reading.plan hrows hload⟩
    case h_2 => simp at hs
  | readBaseChunk call =>
    split at hs
    case h_1 w node index needed baseChunks hcall =>
      cases hs
      obtain ⟨hw, hreading⟩ := h.writes _ (mem_of_getElem? hcall)
      exact writes_set h ⟨hw, Reading.read hrows hreading⟩
    case h_2 => simp at hs
  | stage call =>
    split at hs
    case h_1 w node baseChunks hcall =>
      cases hs
      apply h.stage hcall
      intro sync hsync hsmall
      have hstop := hok _ (by rw [hcall]; rfl) sync hsync hsmall
      rwa [hrows.chunkSizeOf] at hstop
    case h_2 => simp at hs
  | snapshot =>
    split at hs
    case isTrue => simp at hs
    case isFalse hstaged =>
      cases hs
      exact h.snapshot hstaged hok
  | commit sync =>
    split at hs
    case h_1 snap hsync =>
      cases hs
      exact h.commit hsync hok
    case h_2 => simp at hs
  | finish sync =>
    split at hs
    case h_1 snap hsync =>
      cases hs
      exact h.finish hsync hok
    case h_2 => simp at hs
  | fail sync =>
    split at hs
    case h_1 call hsync =>
      cases hs
      obtain ⟨hsyncs, rfl⟩ := h.syncs.eq_singleton hsync
      refine ⟨h.represents, h.writes, ?_⟩
      rw [hsyncs]
      exact .none
    case h_2 => simp at hs

end

end Steps

/-- **Writes and syncs that keep apart lose nothing.** From every file in order, along
every run whose steps meet `Separate`. -/
theorem writes_kept {limits : Limits} {cs : Nat} {f : File} {content : List UInt8}
    (h : Represents limits cs f content) {events : List WriteEvent}
    (hrun : Allowed (WriteState.step limits) (WriteState.Separate limits) { file := f } events) :
    Throughout (WriteState.step limits) (WriteState.Kept limits content) { file := f } events := by
  have hinit : WritesOk limits cs content { file := f } :=
    ⟨h, nofun, .none⟩
  apply Allowed.throughout (I := WritesOk limits cs content) _ (fun s e s' hi hok hs => hi.step hok hs) hinit hrun
  intro s hi _
  have hsynced := hi.represents.synced
  refine ⟨hsynced.1, fun offset length hpos => ?_⟩
  rw [hsynced.2, if_neg (by omega)]

/-- A write is staged and a sync takes its snapshot; a second write to the same chunk is
merged before the commit and stays staged after it. -/
theorem writes_kept_overlapping :
    (Limits.mk 4 2).maxInlineLen ≤ (Limits.mk 4 2).volumeChunkSize ∧
      let run : List WriteEvent :=
        [.load ⟨0, [1, 1, 1, 1]⟩, .plan 0, .stage 0, .snapshot, .load ⟨1, [2, 2]⟩, .plan 0, .stage 0, .commit 0,
          .load ⟨3, [3]⟩, .finish 0, .plan 0, .stage 0]
      (exec (WriteState.step ⟨4, 2⟩) { file := (Limits.mk 4 2).emptyFile } run).isSome ∧
        Throughout (WriteState.step ⟨4, 2⟩) (WriteState.Kept ⟨4, 2⟩ []) { file := (Limits.mk 4 2).emptyFile } run :=
  ⟨by decide, by decide, writes_kept (represents_emptyFile ⟨4, 2⟩ (by decide)) (by decide)⟩

/-- The runs below start with an empty file, with chunks of four bytes and two bytes
inline at most. -/
def emptyState : WriteState := { file := (Limits.mk 4 2).emptyFile }

/-- What a read returns after the events and one more sync. -/
def readAfter (events : List WriteEvent) : Option (List UInt8) :=
  (exec (WriteState.step ⟨4, 2⟩) emptyState events).map fun s => (s.file.fsync ⟨4, 2⟩).readFile ⟨4, 2⟩ 0 8

/-- What it should return. -/
def writesAfter (events : List WriteEvent) : Option (List UInt8) :=
  (exec (WriteState.step ⟨4, 2⟩) emptyState events).bind fun s =>
    if s.syncs = [] then some (slice (s.merged.foldl (fun c w => splice c w.offset w.data) []) 0 8) else none

theorem readAfter_of_kept {events : List WriteEvent} {content : List UInt8}
    (h : Throughout (WriteState.step ⟨4, 2⟩) (WriteState.Kept ⟨4, 2⟩ []) emptyState events)
    (hwrites : writesAfter events = some content) : readAfter events = some content := by
  unfold writesAfter at hwrites
  unfold readAfter
  cases hs : exec (WriteState.step ⟨4, 2⟩) emptyState events with
  | none => simp [hs] at hwrites
  | some s =>
    rw [hs, Option.bind_some] at hwrites
    split at hwrites
    case isTrue hidle =>
      rwa [Option.map_some, (h.last hs hidle).2 0 8 (by decide)]
    case isFalse => simp at hwrites

/-- A write of the whole first chunk. -/
def writeOnes : List WriteEvent := [.load ⟨0, [1, 1, 1, 1]⟩, .plan 0, .stage 0]

/-- A write reads its base chunk, another write to the chunk is staged and committed, and
the first merges into what it has read. -/
def staleBase : List WriteEvent :=
  writeOnes ++ [.snapshot, .commit 0, .finish 0] ++
    [.load ⟨0, [2]⟩, .plan 0, .readBaseChunk 0, .load ⟨1, [3]⟩, .plan 1, .readBaseChunk 1, .stage 1,
      .snapshot, .commit 0, .finish 0, .stage 0]

/-- A write finds its chunk staged and reads no base; the chunk is committed and dropped,
and the write merges into nothing. -/
def missingBase : List WriteEvent :=
  writeOnes ++ [.snapshot, .load ⟨0, [2, 2, 2]⟩, .plan 0, .commit 0, .finish 0, .stage 0]

/-- A sync takes its snapshot of a file of one byte, a write to the second chunk is staged,
and the file is committed inline: the second chunk is never read again. -/
def hiddenChunk : List WriteEvent :=
  [.load ⟨0, [1]⟩, .plan 0, .stage 0, .snapshot, .load ⟨4, [2]⟩, .plan 0, .stage 0, .commit 0, .finish 0]

/-- No sync fails and all calls finish, and yet the byte 3 of the first run, the last byte
of the second and the byte 2 of the third are lost. -/
theorem writes_lost :
    (readAfter staleBase = some [2, 1, 1, 1] ∧
      ¬ Throughout (WriteState.step ⟨4, 2⟩) (WriteState.Kept ⟨4, 2⟩ []) emptyState staleBase) ∧
    (readAfter missingBase = some [2, 2, 2, 0] ∧
      ¬ Throughout (WriteState.step ⟨4, 2⟩) (WriteState.Kept ⟨4, 2⟩ []) emptyState missingBase) ∧
    (readAfter hiddenChunk = some [1, 0, 0, 0, 0] ∧
      ¬ Throughout (WriteState.step ⟨4, 2⟩) (WriteState.Kept ⟨4, 2⟩ []) emptyState hiddenChunk) := by
  refine ⟨⟨by decide, fun h => ?_⟩, ⟨by decide, fun h => ?_⟩, ⟨by decide, fun h => ?_⟩⟩
  · have hread := readAfter_of_kept h (show _ = some [2, 3, 1, 1] by decide)
    exact absurd hread (by decide)
  · have hread := readAfter_of_kept h (show _ = some [2, 2, 2, 1] by decide)
    exact absurd hread (by decide)
  · have hread := readAfter_of_kept h (show _ = some [1, 0, 0, 0, 2] by decide)
    exact absurd hread (by decide)

end InClusterStorage.Controller
