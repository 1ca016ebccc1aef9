import InClusterStorage.Controller.Handles
import InClusterStorage.Controller.SerialSyncs

/- Whether a file that is removed can keep the others from being synced. A sync covers
   all that is staged, and fails as a whole if one of its inodes has no row. `Unlink`
   drops what is staged for the inode; `Rename` over a file, and `Release` of the last
   handle of a file without a name, delete the row and leave the staged chunks, and
   from then on every sync of the volume fails.

   `syncable_iff_spares`: along every sequence of calls, each file can be synced exactly
   if no such call finds staged chunks for the inode whose row it deletes.

   The calls run one at a time and without I/O errors; a blocking `Fsync`, the barrier of
   `Open` and a timer that fires are goroutines of the staging area, run from their start
   to their end. -/
namespace InClusterStorage.Controller

open Volume Table Option Staging Runs

namespace Volume

/-! Data. -/

def writeFile (inodeID : Nat) (chunks : List ChunkWrite) (v : Volume) : Volume × Except VolumeError Unit :=
  let ino := v.normalizeInodeID inodeID
  match v.inodes.lookup ino with
  | none => (v, .error .enoent)
  | some node =>
    let v := v.loaded ino node
    if node.isDir then (v, .error .eisdir)
    else ({ v with staging := v.staging.writeFile ino chunks true }, .ok ())

/-- Whether the next section of a goroutine succeeds, without I/O errors:
`appendSyncRecordsLocked` fails if an inode of the snapshot has no row. -/
def succeeds (v : Volume) : Pc → Bool
  | .appending sync => sync.inodes.all fun ino => (v.inodes.lookup ino).isSome
  | _ => true

/-- Run a goroutine of the staging area, alone, until it returns. -/
def runAlone : Nat → Pc → Volume → Option (Volume × Option SyncError)
  | 0, _, _ => none
  | _ + 1, .done err, v => some (v, err)
  | fuel + 1, pc, v =>
    match v.staging.run 0 (v.succeeds pc) pc with
    | none => none
    | some (staging, pc') => runAlone fuel pc' { v with staging }

/-- The longest goroutine has six sections. -/
def sections : Nat := 7

def syncResult : Option SyncError → Except VolumeError Unit
  | none => .ok ()
  | some err => .error (.sync err)

/-- `Fsync`, which blocks. -/
def fsync (inodeID : Nat) (v : Volume) : Option (Volume × Except VolumeError Unit) :=
  let ino := v.normalizeInodeID inodeID
  match v.inodes.lookup ino with
  | none => some (v, .error .enoent)
  | some node =>
    (runAlone sections (.fsync ino true .unspecified) (v.loaded ino node)).map fun result =>
      (result.1, syncResult result.2)

/-- `Open`: behind the barrier, in `CLOSE_TO_OPEN` mode. -/
def openInode (inodeID : Nat) (v : Volume) : Option (Volume × Except VolumeError Nat) :=
  let ino := v.normalizeInodeID inodeID
  let barrier := if v.closeToOpen then runAlone sections (.openBarrier ino) v else some (v, none)
  barrier.map fun result =>
    let v := result.1
    match result.2, v.inodes.lookup ino with
    | some _, _ => (v, .error .eio)
    | none, none => (v, .error .enoent)
    | none, some node =>
      let opened := (v.loaded ino node).allocFh ino
      (opened.1, .ok opened.2)

/-! The machine. -/

inductive VolumeCall where
  | names (call : NamespaceCall)
  | writeFile (inodeID : Nat) (chunks : List ChunkWrite)
  | openInode (inodeID : Nat)
  | release (inodeID fh : Nat)
  | fsync (inodeID : Nat)
  /-- a timer fires, and what it starts runs to its end -/
  | timer (i : Nat)
  deriving DecidableEq, Repr

def step (v : Volume) : VolumeCall → Option Volume
  | .names call => (v.serve true call).map Prod.fst
  | .writeFile inodeID chunks => some (v.writeFile inodeID chunks).1
  | .openInode inodeID => (v.openInode inodeID).map Prod.fst
  | .release inodeID fh => some (v.release inodeID fh)
  | .fsync inodeID => (v.fsync inodeID).map Prod.fst
  | .timer i =>
    match v.staging.timers[i]? with
    | some ⟨kind, .armed⟩ =>
      (runAlone sections kind.pc
        { v with staging := { v.staging with timers := v.staging.timers.set i ⟨kind, .fired⟩ } }).map Prod.fst
    | _ => none

/-! What is to be kept. -/

/-- A blocking `Fsync` returns nil, possibly after a call that reports an error recorded
earlier. -/
def FsyncReturnsNil (inodeID : Nat) (v : Volume) : Prop :=
  ∃ v₁ r, v.fsync inodeID = some (v₁, r) ∧
    (r = .ok () ∨ ∃ err, v.staging.lastSyncError.lookup (v.normalizeInodeID inodeID) = some err ∧
      r = .error (.sync err) ∧ ∃ v₂, v₁.fsync inodeID = some (v₂, .ok ()))

/-- Every existing inode can be synced. -/
def Syncable (v : Volume) : Prop :=
  ∀ inodeID row, v.inodes.lookup (v.normalizeInodeID inodeID) = some row → v.FsyncReturnsNil inodeID

def releaseDeletes (inodeID fh : Nat) (v : Volume) : Option Nat :=
  let taken := v.takeHandle (v.normalizeInodeID inodeID) fh
  let ino := taken.2
  match v.inodes.lookup ino with
  | none => none
  | some node =>
    if (v.openInodes.lookup ino).getD 0 ≤ 1 ∧ node.isDir = false ∧ node.nlink = 0 then some ino else none

/-- A call that deletes the row of a file other than by `Unlink` finds nothing staged for
it: a rename over the last link of a file that is not open, and the release of the last
handle of a file without links. -/
def Spares (v : Volume) : VolumeCall → Prop
  | .names call => ∀ m, v.does true call = .renamed m → ∀ ino row, m.target = some (ino, row) →
      row.isDir = false → row.nlink ≤ 1 → v.hasOpenHandles ino = false → ino ≠ m.childIno →
      v.staging.hasStaged ino = false
  | .release inodeID fh => ∀ ino, v.releaseDeletes inodeID fh = some ino → v.staging.hasStaged ino = false
  | _ => True

end Volume

/-! One goroutine, alone. -/

/-- No staged chunk belongs to an inode without a row. -/
def StagedHaveRows (v : Volume) : Prop :=
  ∀ e ∈ v.staging.stagedChunks.entries, ∃ row, v.inodes.lookup e.1.1 = some row

/-- From `s` to `s'`, in a goroutine that goes from `pc` to `pc'`, nothing is staged, and the
flag stands for a sync of the goroutine. -/
structure Staging.Alone (s s' : Staging) (pc' : Pc) : Prop where
  staged : s'.stagedChunks.entries ⊆ s.stagedChunks.entries
  flag : s'.syncInProgress = true → pc'.Syncing

variable {s : Staging} {v v' : Volume} {inodeID ino : Nat} {row : Inode}

theorem Staging.run_alone {t : Nat} {ok : Bool} {s' : Staging} {pc pc' : Pc}
    (hflag : s.syncInProgress = true → pc.Syncing) (h : s.run t ok pc = some (s', pc')) : s.Alone s' pc' := by
  obtain ⟨sync, err, rfl, -⟩ | ⟨rfl, hsyncing⟩ | ⟨hpc, hstaged, -, hcases⟩ := run_cases h
  · have hspec := finishSync_spec sync err s
    exact ⟨hspec.2.2, fun hf => by simp [hspec.1] at hf⟩
  · exact ⟨List.Subset.refl _, fun _ => hsyncing⟩
  · have hidle : s.syncInProgress = false := Bool.eq_false_iff.2 fun hf => hpc (hflag hf)
    refine ⟨hstaged ▸ List.Subset.refl _, fun hf => ?_⟩
    obtain ⟨-, hsame⟩ | ⟨-, -, sync, rfl, -⟩ := hcases
    · simp [hsame, hidle] at hf
    · trivial

theorem runAlone_next {fuel : Nat} {pc : Pc} {result : Staging × Pc}
    (h : v.staging.run 0 (v.succeeds pc) pc = some result) (hpc : ∀ e, pc ≠ .done e) :
    runAlone (fuel + 1) pc v = runAlone fuel result.2 { v with staging := result.1 } := by
  rwa [runAlone, h]

/-- A goroutine that has returned has changed the staging area only, has staged nothing,
and leaves no sync behind. -/
theorem runAlone_spec : ∀ {fuel : Nat} {pc : Pc} {v v' : Volume} {err : Option SyncError},
    (v.staging.syncInProgress = true → pc.Syncing) → runAlone fuel pc v = some (v', err) →
    ∃ staging, v' = { v with staging } ∧ staging.syncInProgress = false ∧
      staging.stagedChunks.entries ⊆ v.staging.stagedChunks.entries := by
  intro fuel
  induction fuel with
  | zero => intro pc v v' err _ h; cases h
  | succ fuel ih =>
    intro pc v v' err hflag h
    by_cases hdone : ∃ e, pc = .done e
    · obtain ⟨e, rfl⟩ := hdone
      cases h
      exact ⟨v.staging, rfl, Bool.eq_false_iff.2 hflag, List.Subset.refl _⟩
    · rw [runAlone] at h
      · split at h
        · cases h
        · rename_i staging pc' hrun
          have halone := run_alone hflag hrun
          obtain ⟨staging', rfl, hidle, hsub⟩ := ih halone.flag h
          exact ⟨staging', rfl, hidle, List.Subset.trans hsub halone.staged⟩
      · exact fun e he => hdone ⟨e, he⟩

/-- What a sync of the chunks returns. -/
def syncError (entries : List StagedEntry) (v : Volume) : Option SyncError :=
  if entries.all fun e => (v.inodes.lookup e.1.1).isSome then none else some .append

theorem syncError_eq_none {entries : List StagedEntry} :
    syncError entries v = none ↔ ∀ e ∈ entries, ∃ row, v.inodes.lookup e.1.1 = some row := by
  simp only [syncError, ite_eq_left_iff, List.all_eq_true, isSome_iff_exists, reduceCtorEq, imp_false, not_not]

/-- A sync that has its snapshot fails if an inode has no row, and not otherwise. -/
theorem runAlone_uploading (fuel : Nat) (sync : Sync) (v : Volume) :
    ∃ v', runAlone (fuel + 5) (.uploading sync) v = some (v', syncError sync.snapshotChunks v) := by
  have hall : (sync.inodes.all fun ino => (v.inodes.lookup ino).isSome) =
      sync.snapshotChunks.all fun e => (v.inodes.lookup e.1.1).isSome := by
    simp only [Sync.inodes, List.all_map, Function.comp_def]
  cases h : sync.snapshotChunks.all fun e => (v.inodes.lookup e.1.1).isSome with
  | true | false => simp [runAlone, run, Volume.succeeds, syncError, hall, h]

/-- A blocking sync, once no other is in progress: it covers all that is staged. -/
theorem runAlone_blockingSync :
    ∃ v', runAlone 6 (s.blockingSync true).2 { v with staging := (s.blockingSync true).1 } =
      some (v', syncError s.stagedChunks.entries v) := by
  unfold blockingSync
  split_ifs with hempty
  · simp [runAlone, run, Volume.succeeds, syncError, hempty]
  have hfilter : s.stagedChunks.entries.filter (fun e => inFilter none e.1.1) = s.stagedChunks.entries :=
    List.filter_eq_self.2 fun _ _ => rfl
  simp only [executeSyncLocked, hfilter, hempty, reduceCtorEq, and_false, if_false]
  exact runAlone_uploading 1 _ _

theorem fsync_recorded {err : SyncError} (hrow : v.inodes.lookup (v.normalizeInodeID inodeID) = some row)
    (herr : v.staging.lastSyncError.lookup (v.normalizeInodeID inodeID) = some err) :
    ∃ w, v.fsync inodeID = some (w, .error (.sync err)) ∧ w.inodes = v.inodes ∧
      w.normalizeInodeID inodeID = v.normalizeInodeID inodeID ∧
      w.staging = { v.staging with lastSyncError := v.staging.lastSyncError.erase (v.normalizeInodeID inodeID) } := by
  have hsame := loaded_sameRows (v.normalizeInodeID inodeID) row v
  refine ⟨{ v.loaded (v.normalizeInodeID inodeID) row with staging :=
    { v.staging with lastSyncError := _ } }, ?_, hsame.inodes, hsame.normalizeInodeID inodeID, rfl⟩
  simp [fsync, hrow, sections, runAlone, run, hsame.staging, herr, syncResult]

theorem runAlone_fsync (hidle : v.staging.syncInProgress = false)
    (herr : v.staging.lastSyncError.lookup ino = none) :
    ∃ v', runAlone sections (.fsync ino true .unspecified) v = some (v', syncError v.staging.stagedChunks.entries v) := by
  have hrun : v.staging.run 0 (v.succeeds (.fsync ino true .unspecified)) (.fsync ino true .unspecified) =
      some ({ v.staging.stopCoalesce.stopClose with closeInodes := none }.blockingSync true) := by
    simp only [run, herr]
    exact if_neg (by simp [stopClose, stopCoalesce, hidle])
  obtain ⟨v', hv'⟩ := runAlone_blockingSync (v := v) (s := { v.staging.stopCoalesce.stopClose with closeInodes := none })
  exact ⟨v', (runAlone_next hrun (by simp)).trans hv'⟩

/-- Otherwise the result is that of a sync of all that is staged. -/
theorem fsync_unrecorded (hidle : v.staging.syncInProgress = false)
    (hrow : v.inodes.lookup (v.normalizeInodeID inodeID) = some row)
    (herr : v.staging.lastSyncError.lookup (v.normalizeInodeID inodeID) = none) :
    ∃ v', v.fsync inodeID = some (v', syncResult (syncError v.staging.stagedChunks.entries v)) := by
  have hsame := loaded_sameRows (v.normalizeInodeID inodeID) row v
  obtain ⟨v', hv'⟩ := runAlone_fsync (hsame.staging ▸ hidle) (hsame.staging ▸ herr)
  refine ⟨v', ?_⟩
  simp only [fsync, hrow, hv', map_some, syncError, hsame.staging, hsame.inodes]

/-! Syncable volumes. -/

/-- Between two calls: the rows are sound, no sync is in progress, and what is staged
belongs to files. -/
structure Resting (v : Volume) : Prop where
  sound : Sound v
  idle : v.staging.syncInProgress = false
  files : ∀ e ∈ v.staging.stagedChunks.entries, e.1.1 < v.nextInode ∧
    ∀ row, v.inodes.lookup e.1.1 = some row → row.isDir = false

theorem syncResult_eq_ok {err : Option SyncError} : syncResult err = .ok () ↔ err = none := by
  cases err <;> simp [syncResult]

/-- A call that reports a recorded error is followed by one that syncs all that is staged. -/
theorem fsyncReturnsNil_iff (hidle : v.staging.syncInProgress = false)
    (hrow : v.inodes.lookup (v.normalizeInodeID inodeID) = some row) :
    v.FsyncReturnsNil inodeID ↔ syncError v.staging.stagedChunks.entries v = none := by
  cases herr : v.staging.lastSyncError.lookup (v.normalizeInodeID inodeID) with
  | none =>
    obtain ⟨v', hv'⟩ := fsync_unrecorded hidle hrow herr
    constructor
    · rintro ⟨v₁, r, hr, rfl | ⟨err, hrec, -⟩⟩
      · exact syncResult_eq_ok.1 (Prod.mk.inj (some.inj (hv'.symm.trans hr))).2
      · cases herr.symm.trans hrec
    · exact fun hnone => ⟨v', _, hv', .inl (syncResult_eq_ok.2 hnone)⟩
  | some err =>
    -- the volume that the first call leaves
    obtain ⟨w, hfirst, hinodes, hnorm, hw⟩ := fsync_recorded hrow herr
    have hrow' : w.inodes.lookup (w.normalizeInodeID inodeID) = some row := by
      rwa [hnorm, hinodes]
    have herr' : w.staging.lastSyncError.lookup (w.normalizeInodeID inodeID) = none := by
      rw [hnorm, hw]
      exact AList.lookup_erase _ _
    obtain ⟨v', hv'⟩ := fsync_unrecorded (by rw [hw]; exact hidle) hrow' herr'
    have herror : syncError w.staging.stagedChunks.entries w = syncError v.staging.stagedChunks.entries v := by
      simp only [syncError, hinodes]
      rw [hw]
    rw [herror] at hv'
    constructor
    · rintro ⟨v₁, r, hr, rfl | ⟨err', -, -, v₂, hv₂⟩⟩
      · cases hfirst.symm.trans hr
      · cases hfirst.symm.trans hr
        exact syncResult_eq_ok.1 (Prod.mk.inj (some.inj (hv'.symm.trans hv₂))).2
    · intro hnone
      rw [syncResult_eq_ok.2 hnone] at hv'
      exact ⟨w, _, hfirst, .inr ⟨err, herr, rfl, v', hv'⟩⟩

/-- Every inode can be synced exactly if no staged chunk has lost its row. -/
theorem syncable_iff (h : Resting v) : Syncable v ↔ StagedHaveRows v := by
  constructor
  · intro hs
    obtain ⟨row, hroot, -⟩ := h.sound.root
    have hnorm : v.normalizeInodeID v.rootInodeID = v.rootInodeID := if_neg h.sound.rootNonzero
    have hnil := hs v.rootInodeID row (hnorm.symm ▸ hroot)
    exact syncError_eq_none.1 ((fsyncReturnsNil_iff h.idle (hnorm.symm ▸ hroot)).1 hnil)
  · intro hrows inodeID row hrow
    exact (fsyncReturnsNil_iff h.idle hrow).2 (syncError_eq_none.2 hrows)

/-! One call. -/

theorem hasStaged_eq_false : s.hasStaged ino = false ↔ ∀ e ∈ s.stagedChunks.entries, e.1.1 ≠ ino := by
  simp only [hasStaged, List.any_eq_false, decide_eq_true_eq]

/-- A namespace call stages nothing, and starts no sync. -/
theorem Outcome.staged {d : Done} (h : Outcome v v' d) :
    v'.staging.syncInProgress = v.staging.syncInProgress ∧
      v'.staging.stagedChunks.entries ⊆ v.staging.stagedChunks.entries := by
  have hsame : v'.staging = v.staging ∨ ∃ ino, v'.staging = v.staging.dropStagedChunksLocked ino := by
    cases h.effect with
    | none _ _ staging => exact staging
    | added _ _ _ _ _ _ _ _ _ _ _ staging | rewritten _ _ _ _ _ _ _ _ _ _ _ staging => exact .inl staging
    | linked _ _ _ _ _ _ _ _ _ _ _ _ staging => exact .inl staging
    | unlinked _ _ de _ _ _ _ staging => exact .inr ⟨de.ino, staging⟩
    | removed _ _ _ _ _ _ _ _ _ _ _ _ staging => exact .inl staging
    | renamed m w renames => exact .inl renames.staging
  obtain hst | ⟨ino, hst⟩ := hsame
  · rw [hst]
    exact ⟨rfl, List.Subset.refl _⟩
  · rw [hst]
    exact ⟨rfl, List.filter_sublist.subset⟩

theorem Outcome.resting {d : Done} (h : Outcome v v' d) (hv : Resting v) : Resting v' := by
  obtain ⟨hflag, hsub⟩ := h.staged
  refine ⟨h.sound hv.sound, hflag.trans hv.idle, fun e he => ?_⟩
  obtain ⟨hlt, hfile⟩ := hv.files e (hsub he)
  refine ⟨lt_of_lt_of_le hlt h.nextInode, fun row' hrow' => ?_⟩
  obtain ⟨hnew, -⟩ | ⟨row, hrow, hkind⟩ := h.keepsKinds hv.sound _ row' hrow'
  · omega
  · exact hkind.trans (hfile row hrow)

theorem unlinked_nlink_eq_zero : row.unlinked.nlink = 0 ↔ row.nlink ≤ 1 := by
  show (if row.nlink > 1 then row.nlink - 1 else 0) = 0 ↔ _
  split_ifs <;> omega

/-- A rename deletes the row of a file that it replaces, if the file has no other link and is not open. -/
theorem Renames.file_gone {w : Volume} {m : Renaming} (h : Renames v v' m w) (hv : Sound v) {i : Nat}
    (htarget : m.target = some (i, row)) (hfile : row.isDir = false) (hlink : row.nlink ≤ 1)
    (hclosed : v.hasOpenHandles i = false) (hchild : i ≠ m.childIno) : v'.inodes.lookup i = none := by
  -- the parents are directories
  have hne : ∀ {p : Nat} {prow : Inode}, v.inodes.lookup p = some prow → prow.isDir = true → i ≠ p := by
    rintro p prow hprow hdir rfl
    cases hprow.symm.trans (h.reads.target _ _ htarget).2
    simp [hdir] at hfile
  have hold := hne h.reads.oldParent (h.oldParentDir hv)
  have hnew := hne h.reads.newParent h.reads.newParentDir
  rw [h.inodes, Renaming.lookup_inodesAfter, if_neg fun hand => hnew hand.1, if_neg hold, if_neg hchild,
    Renaming.lookup_withoutTarget_some htarget, if_pos rfl, if_pos]
  simp [Renaming.deletes, unlinked_nlink_eq_zero, hlink, hclosed]

/-- Where a call other than a rename deletes the row of a file, nothing is staged for it any more. -/
theorem Outcome.unstaged (h : Outcome v v' .plain) {i : Nat} (hi : v.inodes.lookup i = some row)
    (hgone : v'.inodes.lookup i = none) : v'.staging = v.staging.dropStagedChunksLocked i := by
  have hinsert : ∀ {a b : Nat} {ra rb : Inode}, ((v.inodes.insert a ra).insert b rb).lookup i ≠ none := by
    intro a b ra rb hnone
    obtain ⟨row', hrow'⟩ := exists_lookup_insert b rb (exists_lookup_insert a ra ⟨row, hi⟩)
    cases hrow'.symm.trans hnone
  cases h.effect with
  | none inodes => cases hi.symm.trans (inodes ▸ hgone)
  | added parent name parentInode child hparent hdir hfree hchild hnext inodes => exact absurd (inodes ▸ hgone) hinsert
  | rewritten parent ino mode parentInode childInode hparent hdir hino hfile inodes =>
    exact absurd (inodes ▸ hgone) hinsert
  | unlinked parent name de row parentInode unlinks hfile staging =>
    have hino : i = de.ino := by
      by_contra hne
      obtain ⟨row', hrow'⟩ : ∃ row', v'.inodes.lookup i = some row' := by
        rw [unlinks.inodes]
        apply exists_lookup_insert
        split_ifs
        · exact ⟨_, (lookup_erase _ _ _).trans ((if_neg hne).trans hi)⟩
        · exact exists_lookup_insert _ _ ⟨_, hi⟩
      cases hrow'.symm.trans hgone
    rw [staging, hino]

/-- After a namespace call the staged chunks have their rows, unless it has renamed
another file over the last link of one of them. -/
theorem Outcome.stagedHaveRows {d : Done} (h : Outcome v v' d)
    (hv : Resting v) (hrows : StagedHaveRows v) {call : NamespaceCall} (hdoes : v.does true call = d) :
    StagedHaveRows v' ↔ Spares v (.names call) := by
  obtain ⟨-, hsub⟩ := h.staged
  have hstaged (e) (he : e ∈ v'.staging.stagedChunks.entries) : ∃ row, v.inodes.lookup e.1.1 = some row ∧
      row.isDir = false := by
    obtain ⟨row, hrow⟩ := hrows e (hsub he)
    exact ⟨row, hrow, (hv.files e (hsub he)).2 row hrow⟩
  constructor
  · intro h' m hm ino row htarget hfile hlink hopen hchild
    cases hdoes.symm.trans hm
    rw [hasStaged_eq_false]
    rintro e he rfl
    cases h.effect with
    | renamed _ w renames =>
      obtain ⟨row', hrow'⟩ := h' e (renames.staging.symm ▸ he)
      cases hrow'.symm.trans (renames.file_gone hv.sound htarget hfile hlink hopen hchild)
  · intro hspares e he
    obtain ⟨row, hrow, hfile⟩ := hstaged e he
    cases ha : v'.inodes.lookup e.1.1 with
    | some row' => exact ⟨row', rfl⟩
    | none =>
      cases h.rowEffect hv.sound hrow ha with
      | gone _ _ file _ done =>
        obtain ⟨hlink, hclosed⟩ := file hfile
        obtain ⟨rfl, -⟩ | ⟨-, hdir⟩ | ⟨m, hd, htarget, hchild⟩ := done
        · rw [h.unstaged hrow ha] at he
          exact absurd rfl (by simpa using (List.mem_filter.1 he).2 : e.1.1 ≠ e.1.1)
        · cases hfile.symm.trans hdir
        · exact absurd rfl (hasStaged_eq_false.1
            (hspares m (hdoes.trans hd) _ row htarget hfile (unlinked_nlink_eq_zero.1 hlink) hclosed hchild) e (hsub he))

/-- The rows and numbers are the same, no sync is in progress, and nothing was staged. -/
structure Quiet (v v' : Volume) : Prop where
  inodes : v'.inodes = v.inodes
  dirEntries : v'.dirEntries = v.dirEntries
  nextInode : v'.nextInode = v.nextInode
  rootInodeID : v'.rootInodeID = v.rootInodeID
  idle : v'.staging.syncInProgress = false
  staged : v'.staging.stagedChunks.entries ⊆ v.staging.stagedChunks.entries

theorem Quiet.resting (h : Quiet v v') (hv : Resting v) : Resting v' := by
  refine ⟨hv.sound.of_same h.dirEntries h.rootInodeID h.inodes h.nextInode, h.idle, fun e he => ?_⟩
  rw [h.inodes, h.nextInode]
  exact hv.files e (h.staged he)

theorem Quiet.stagedHaveRows (h : Quiet v v') (hrows : StagedHaveRows v) : StagedHaveRows v' := by
  intro e he
  rw [h.inodes]
  exact hrows e (h.staged he)

theorem runAlone_quiet {fuel : Nat} {pc : Pc} {err : Option SyncError}
    (hidle : v.staging.syncInProgress = false) (h : runAlone fuel pc v = some (v', err)) : Quiet v v' := by
  obtain ⟨staging, rfl, hflag, hsub⟩ := runAlone_spec (fun hf => by simp [hidle] at hf) h
  exact ⟨rfl, rfl, rfl, rfl, hflag, hsub⟩

theorem Quiet.trans {w : Volume} (h : Quiet v v') (h' : Quiet v' w) : Quiet v w :=
  ⟨h'.inodes.trans h.inodes, h'.dirEntries.trans h.dirEntries, h'.nextInode.trans h.nextInode,
    h'.rootInodeID.trans h.rootInodeID, h'.idle, List.Subset.trans h'.staged h.staged⟩

theorem Volume.SameRows.quiet (h : v.SameRows v') (hidle : v.staging.syncInProgress = false) : Quiet v v' :=
  ⟨h.inodes, h.dirEntries, h.sameNext, h.rootInodeID, h.staging ▸ hidle, h.staging ▸ List.Subset.refl _⟩

theorem stageChunk_entries {w : ChunkWrite} {e : StagedEntry}
    (he : e ∈ (s.stageChunk ino w).stagedChunks.entries) : e.1.1 = ino ∨ e ∈ s.stagedChunks.entries := by
  obtain rfl | he := mem_insert_entries he
  · exact .inl rfl
  · exact .inr he

theorem writeFile_entries {chunks : List ChunkWrite} {ok : Bool}
    {e : StagedEntry} (he : e ∈ (s.writeFile ino chunks ok).stagedChunks.entries) :
    e.1.1 = ino ∨ e ∈ s.stagedChunks.entries := by
  have hstaged : ∀ (chunks : List ChunkWrite) (s : Staging),
      e ∈ (chunks.foldl (stageChunk ino) s).stagedChunks.entries → e.1.1 = ino ∨ e ∈ s.stagedChunks.entries := by
    intro chunks
    induction chunks with
    | nil => exact fun s he => .inr he
    | cons w rest ih => exact fun s he => (ih _ he).elim .inl fun h => stageChunk_entries h
  apply hstaged chunks s
  unfold Staging.writeFile at he
  simp only at he
  split_ifs at he <;> exact he

theorem writeFile_resting (inodeID : Nat) (chunks : List ChunkWrite) (hv : Resting v) :
    Resting (v.writeFile inodeID chunks).1 ∧ (StagedHaveRows v → StagedHaveRows (v.writeFile inodeID chunks).1) := by
  dsimp only [Volume.writeFile]
  split
  · exact ⟨hv, id⟩
  rename_i node hnode
  have hsame := loaded_sameRows (v.normalizeInodeID inodeID) node v
  have hquiet := hsame.quiet hv.idle
  split_ifs with hdir
  · exact ⟨hquiet.resting hv, hquiet.stagedHaveRows⟩
  have hfile : node.isDir = false := by simpa using hdir
  have hentries (e) (he : e ∈ ((v.loaded (v.normalizeInodeID inodeID) node).staging.writeFile
      (v.normalizeInodeID inodeID) chunks true).stagedChunks.entries) :
      e.1.1 = v.normalizeInodeID inodeID ∨ e ∈ v.staging.stagedChunks.entries := by
    rw [hsame.staging] at he
    exact writeFile_entries he
  constructor
  · refine ⟨(hquiet.resting hv).sound.of_same rfl rfl rfl rfl, ?_, fun e he => ?_⟩
    · exact (advances_writeFile _ chunks true _).flag.trans hquiet.idle
    · show e.1.1 < (v.loaded _ node).nextInode ∧ ∀ row, (v.loaded _ node).inodes.lookup e.1.1 = some row → _
      rw [hsame.sameNext, hsame.inodes]
      obtain heq | hold := hentries e he
      · rw [heq]
        refine ⟨hv.sound.fresh _ node hnode, fun row hrow => ?_⟩
        cases hnode.symm.trans hrow
        exact hfile
      · exact hv.files e hold
  · intro hrows e he
    rw [hsame.inodes]
    obtain heq | hold := hentries e he
    · exact ⟨node, heq ▸ hnode⟩
    · exact hrows e hold

theorem release_cases {fh : Nat} (hv' : v.release inodeID fh = v') (hidle : v.staging.syncInProgress = false) :
    v.releaseDeletes inodeID fh = none ∧ Quiet v v' ∨
    ∃ ino row, v.releaseDeletes inodeID fh = some ino ∧ v.inodes.lookup ino = some row ∧ row.isDir = false ∧
      v'.inodes = v.inodes.erase ino ∧ v'.dirEntries = v.dirEntries ∧ v'.nextInode = v.nextInode ∧
      v'.rootInodeID = v.rootInodeID ∧ v'.staging = v.staging := by
  obtain ⟨h, -⟩ := release_released inodeID fh v
  rw [hv'] at h
  have hdeletes : v.releaseDeletes inodeID fh =
      match v.inodes.lookup (v.releasedInode inodeID fh) with
      | none => none
      | some node =>
        if v.openCount (v.releasedInode inodeID fh) ≤ 1 ∧ node.isDir = false ∧ node.nlink = 0
        then some (v.releasedInode inodeID fh) else none := rfl
  generalize v.releasedInode inodeID fh = ino at h hdeletes
  rw [hdeletes]
  obtain ⟨hinodes, hkept⟩ | ⟨hinodes, hlast, row, hrow, hfile⟩ := h.inodes
  · left
    refine ⟨?_, hinodes, h.dirEntries, h.nextInode, h.rootInodeID, h.staging ▸ hidle, h.staging ▸ List.Subset.refl _⟩
    cases hrow : v.inodes.lookup ino with
    | none => rfl
    | some row =>
      show (if _ then _ else _) = _
      rw [if_neg]
      rintro ⟨hlast, hfile, hzero⟩
      obtain hmany | hrows := hkept
      · omega
      obtain hdir | hlinks := hrows row hrow
      · rw [hdir] at hfile
        cases hfile
      · exact hlinks hzero
  · right
    rw [hrow]
    exact ⟨ino, row, if_pos ⟨hlast, hfile⟩, hrow, hfile.1, hinodes, h.dirEntries, h.nextInode, h.rootInodeID, h.staging⟩

theorem release_resting {fh : Nat} (hv' : v.release inodeID fh = v') (hv : Resting v) :
    Resting v' ∧ (StagedHaveRows v → (StagedHaveRows v' ↔ Spares v (.release inodeID fh))) := by
  obtain ⟨hnone, hquiet⟩ | ⟨ino, row, hsome, hrow, hfile, hinodes, hentries, hnext, hroot, hstaging⟩ :=
    release_cases hv' hv.idle
  · refine ⟨hquiet.resting hv, fun hrows => iff_of_true (hquiet.stagedHaveRows hrows) ?_⟩
    exact fun ino hino => nomatch hnone.symm.trans hino
  · have hlookup (i) : v'.inodes.lookup i = if i = ino then none else v.inodes.lookup i := by
      rw [hinodes, lookup_erase]
    constructor
    · refine ⟨hv.sound.erase_file hentries hroot hrow hfile hinodes hnext, hstaging ▸ hv.idle, fun e he => ?_⟩
      rw [hstaging] at he
      refine ⟨hnext ▸ (hv.files e he).1, fun row' hrow' => (hv.files e he).2 row' ?_⟩
      rw [hlookup] at hrow'
      split_ifs at hrow'
      exact hrow'
    · intro hrows
      constructor
      · rintro h' i hi
        cases hsome.symm.trans hi
        rw [hasStaged_eq_false]
        rintro e he rfl
        obtain ⟨row', hrow'⟩ := h' e (hstaging.symm ▸ he)
        rw [hlookup, if_pos rfl] at hrow'
        cases hrow'
      · intro hspares e he
        rw [hstaging] at he
        rw [hlookup, if_neg (hasStaged_eq_false.1 (hspares ino hsome) e he)]
        exact hrows e he

theorem openInode_quiet {r : Except VolumeError Nat}
    (hidle : v.staging.syncInProgress = false) (h : v.openInode inodeID = some (v', r)) : Quiet v v' := by
  obtain ⟨⟨w, err⟩, hbarrier, heq⟩ := map_eq_some_iff.1 h
  have hquiet : Quiet v w := by
    split_ifs at hbarrier
    · exact runAlone_quiet hidle hbarrier
    · cases hbarrier
      exact ⟨rfl, rfl, rfl, rfl, hidle, List.Subset.refl _⟩
  dsimp only at heq
  split at heq
  · cases heq; exact hquiet
  · cases heq; exact hquiet
  · rename_i node _
    cases heq
    have hsame := (loaded_sameRows (v.normalizeInodeID inodeID) node w).quiet hquiet.idle
    exact hquiet.trans { hsame with }

theorem fsync_quiet {r : Except VolumeError Unit}
    (hidle : v.staging.syncInProgress = false) (h : v.fsync inodeID = some (v', r)) : Quiet v v' := by
  unfold fsync at h
  dsimp only at h
  split at h
  · cases h
    exact ⟨rfl, rfl, rfl, rfl, hidle, List.Subset.refl _⟩
  rename_i node _
  obtain ⟨⟨w, err⟩, hrun, heq⟩ := map_eq_some_iff.1 h
  cases heq
  have hsame := (loaded_sameRows (v.normalizeInodeID inodeID) node v).quiet hidle
  exact hsame.trans (runAlone_quiet hsame.idle hrun)

/-- One call keeps what holds between the calls, and keeps the rows of what is staged
exactly if it spares it. -/
theorem step_stagedHaveRows {call : VolumeCall} (hv : Resting v)
    (h : v.step call = some v') : Resting v' ∧ (StagedHaveRows v → (StagedHaveRows v' ↔ Spares v call)) := by
  have hquiet : Quiet v v' → Spares v call →
      Resting v' ∧ (StagedHaveRows v → (StagedHaveRows v' ↔ Spares v call)) := fun hq hs =>
    ⟨hq.resting hv, fun hrows => iff_of_true (hq.stagedHaveRows hrows) hs⟩
  cases call with
  | names call =>
    obtain ⟨⟨w, r⟩, hserve, rfl⟩ := map_eq_some_iff.1 h
    have hout := serve_outcome hserve
    exact ⟨hout.resting hv, fun hrows => hout.stagedHaveRows hv hrows rfl⟩
  | writeFile inodeID chunks =>
    cases h
    obtain ⟨hresting, hrows⟩ := writeFile_resting inodeID chunks hv
    exact ⟨hresting, fun h => iff_of_true (hrows h) trivial⟩
  | openInode inodeID =>
    obtain ⟨⟨w, r⟩, hopen, rfl⟩ := map_eq_some_iff.1 h
    exact hquiet (openInode_quiet hv.idle hopen) trivial
  | release inodeID fh =>
    cases h
    exact release_resting rfl hv
  | fsync inodeID =>
    obtain ⟨⟨w, r⟩, hfsync, rfl⟩ := map_eq_some_iff.1 h
    exact hquiet (fsync_quiet hv.idle hfsync) trivial
  | timer i =>
    simp only [step] at h
    split at h
    · rename_i kind _
      obtain ⟨⟨w, err⟩, hrun, rfl⟩ := map_eq_some_iff.1 h
      have hq := runAlone_quiet (by exact hv.idle) hrun
      exact hquiet { hq with } trivial
    · cases h

/-- **Removed files and the others.** Along every sequence of calls, every existing inode
can be synced exactly if no rename over the last link of a file that is not open, and no
release of the last handle of a file without links, finds chunks staged for that file. -/
theorem syncable_iff_spares {v : Volume} (hv : Resting v) (hrows : StagedHaveRows v)
    (calls : List VolumeCall) : Throughout step Syncable v calls ↔ Allowed step Spares v calls := by
  refine throughout_iff_allowed (fun s call s' hs hsync hstep => ?_) calls hv ((syncable_iff hv).2 hrows)
  obtain ⟨hs', hiff⟩ := step_stagedHaveRows hs hstep
  exact ⟨hs', (syncable_iff hs').trans (hiff ((syncable_iff hs).1 hsync))⟩

theorem init_resting (closeToOpen requirePermanent : Bool) : Resting (init closeToOpen requirePermanent) :=
  ⟨init_sound closeToOpen requirePermanent, rfl, nofun⟩

/-- A file is written and renamed: nothing is staged for the file that was there. -/
theorem syncable_iff_spares_new :
    Resting (init true false) ∧ StagedHaveRows (init true false) ∧
      (Throughout step Syncable (init true false)
        [.names (.createFile 1 [97] 0), .names (.createFile 1 [98] 0),
          .writeFile 8 [{ index := 0, data := [1] }], .names (.rename 1 [97] 1 [98])] ↔
      Allowed step Spares (init true false)
        [.names (.createFile 1 [97] 0), .names (.createFile 1 [98] 0),
          .writeFile 8 [{ index := 0, data := [1] }], .names (.rename 1 [97] 1 [98])]) :=
  ⟨init_resting true false, nofun, syncable_iff_spares (init_resting true false) nofun _⟩

/-- A file is written, and another one is renamed over it. -/
def renamedOverRun : List VolumeCall :=
  [.names (.createFile 1 [97] 0), .names (.createFile 1 [98] 0),
    .writeFile 16 [{ index := 0, data := [1] }], .names (.rename 1 [97] 1 [98])]

/-- A file is opened, unlinked, written and released. -/
def releasedRun : List VolumeCall :=
  [.names (.createFile 1 [97] 0), .openInode 8, .names (.unlink 1 [97]),
    .writeFile 8 [{ index := 0, data := [1] }], .release 8 1]

theorem not_syncable_of_append (hrow : v.inodes.lookup (v.normalizeInodeID 1) = some row)
    (herr : v.staging.lastSyncError.lookup (v.normalizeInodeID 1) = none)
    (hfsync : (v.fsync 1).map Prod.snd = some (.error (.sync .append))) : ¬ Syncable v := by
  intro hs
  obtain ⟨v₁, r, hr, rfl | ⟨err, hrec, -⟩⟩ := hs 1 row hrow
  · rw [hr] at hfsync
    cases hfsync
  · cases herr.symm.trans hrec

/-- **Unsyncable volumes**: in both runs the root still exists, has no error on record, and
cannot be synced any more. -/
theorem syncable_violated :
    (∃ v, Reach (· = init true false) step always v ∧ v.staging.stagedChunks.entries.length = 1 ∧
      ¬ Syncable v) ∧ ∃ v, Reach (· = init true false) step always v ∧ ¬ Syncable v :=
  ⟨⟨(exec step (init true false) renamedOverRun).get (by decide),
      Reach.of_exec rfl (some_get _).symm, by decide,
      not_syncable_of_append rfl (by decide) (by decide)⟩,
    ⟨(exec step (init true false) releasedRun).get (by decide),
      Reach.of_exec rfl (some_get _).symm,
      not_syncable_of_append rfl (by decide) (by decide)⟩⟩

end InClusterStorage.Controller
