import InClusterStorage.Controller.Recoverable

/- What a failed restore leaves behind.

   `RestoreSnapshot` drops what is staged before it looks for the snapshot; then it appends
   the restore record, closes the view, and replaces the index. `RestoreOutcome` is the
   list of the ways in which a call can end.

   1. `failed_restore_unchanged_iff`: the volume is unchanged if and only if nothing was
      staged and the call failed before it appended the record, or it failed to flush the
      record or to publish the new snapshot and the rows of the snapshot are those served.
   2. `failed_restore_drops_staged`: an unknown name is enough to lose staged data. -/
namespace InClusterStorage.Controller

open MetaVolume Option Runs

namespace MetaVolume

/-- The call has failed before it appended the restore record. -/
def RestoreError.early : RestoreError → Bool
  | .snapshotNotFound => true
  | .failed step => step = .resetStagingDir || step = .listSnapshots || step = .flushOverlay || step = .append

/-- The call has failed with a view in place. -/
def RestoreError.serving : RestoreError → Bool
  | .failed step => step = .flush || step = .publish
  | _ => false

/-- How a call ends. -/
inductive RestoreOutcome (v : MetaVolume) (name : Name) : MetaVolume × Except RestoreError SnapshotPointer → Prop
  /-- nothing but the staged data is gone -/
  | early {e : RestoreError} (h : e.early = true) : RestoreOutcome v name ({ v with staged := ∅ }, .error e)
  /-- the record is appended, the old view is still there -/
  | recorded {target ptr : SnapshotPointer} (hfind : v.findSnapshot name = some target)
      (hfrom : ptr.restoredFrom = some target.location) (hptr : ptr.position = ptr.location) :
      RestoreOutcome v name ({ v with staged := ∅, stream := v.stream ++ [.mark ptr] }, .error (.failed .flush))
  /-- the view is gone -/
  | unserved {v' : MetaVolume} {e : RestoreError} (hview : v'.view = none) (hearly : e.early = false)
      (hserving : e.serving = false) : RestoreOutcome v name (v', .error e)
  /-- the restored index is served, but not published -/
  | unpublished {target ptr : SnapshotPointer} {obj : Index} {v' : MetaVolume} (hfind : v.findSnapshot name = some target)
      (hfrom : ptr.restoredFrom = some target.location) (hptr : ptr.position = ptr.location)
      (hobj : v.objects.lookup target.location = some obj) (hstaged : v'.staged = ∅) (hobjects : v'.objects = v.objects)
      (hstream : v'.stream = v.stream ++ [.mark ptr])
      (hview : v'.view = some { obj with position := v.stream.length + 1 }) :
      RestoreOutcome v name (v', .error (.failed .publish))
  | restored {v' : MetaVolume} {fresh : SnapshotPointer} : RestoreOutcome v name (v', .ok fresh)

/-- What was staged, what is served and what is recovered are the same. -/
structure Unchanged (v v' : MetaVolume) : Prop where
  staged : v'.staged = v.staged
  served : v'.view.map (fun idx => idx.rows.lookup) = v.view.map fun idx => idx.rows.lookup
  recovered : v'.recover.map (fun r => r.index.rows.lookup) = v.recover.map fun r => r.index.rows.lookup

/-- The snapshot has the rows that are served. -/
def SameRows (v : MetaVolume) (name : Name) : Prop :=
  ∀ target ∈ v.findSnapshot name, ∀ obj ∈ v.objects.lookup target.location, ∀ live ∈ v.view,
    obj.rows.lookup = live.rows.lookup

/-- When a failed restore leaves the volume as it was. -/
def Harmless (v : MetaVolume) (name : Name) (e : RestoreError) : Prop :=
  v.staged = ∅ ∧ (e.early = true ∨ e.serving = true ∧ v.SameRows name)

end MetaVolume

section Outcome

variable {v : MetaVolume} {idx : Index} {r : Recovering} {name : Name}

theorem Traced.restoreIndex_outcome (h : Traced v idx r) {target : SnapshotPointer}
    (hfind : v.findSnapshot name = some target)
    (fault : Option RestoreStep) (maxIno : Nat) :
    RestoreOutcome v name (restoreIndex fault (restorePointer name target) maxIno
      { v with staged := ∅, stream := v.stream ++ [.mark (restorePointer name target)] }) := by
  obtain ⟨hposition, obj, hobj⟩ := h.findSnapshot hfind
  set ptr := restorePointer name target
  have hptr : ptr.position = ptr.location := hposition
  have hlength : (v.stream ++ [TxLog.Record.mark ptr]).length = v.stream.length + 1 := List.length_append
  have hlookup : v.objects.lookup ptr.location = some obj := hobj
  unfold restoreIndex
  simp only [rebuildRestoreSnapshot_eq, hlength, hlookup, map_some]
  by_cases hindex : fault = some .restoreIndex
  · simp only [if_pos hindex]
    split_ifs
    · exact .recorded hfind rfl hptr
    · exact .unserved rfl rfl rfl
    · exact .unserved rfl rfl rfl
  split_ifs
  · exact .recorded hfind rfl hptr
  · exact .unserved rfl rfl rfl
  · exact .unserved rfl rfl rfl
  · exact .unpublished hfind rfl hptr hobj rfl rfl rfl rfl
  · exact .restored

theorem Traced.restoreSnapshot_outcome (h : Traced v idx r) (fault : Option RestoreStep) (name : Name) :
    RestoreOutcome v name (v.restoreSnapshot fault name) := by
  unfold MetaVolume.restoreSnapshot
  simp only
  split
  · exact .early rfl
  split
  · exact .early rfl
  cases hfind : MetaVolume.findSnapshot name { v with staged := ∅ } with
  | none => exact .early rfl
  | some target =>
    simp only
    split
    · exact .early rfl
    split
    · exact .early rfl
    · exact h.restoreIndex_outcome hfind fault _

end Outcome

section Unchanged

variable {v v' : MetaVolume} {idx : Index} {name : Name}

theorem Durable.recover_rows (h : Durable v idx) :
    v.recover.map (fun r => r.index.rows.lookup) = some fun key => idx.rows.lookup key := by
  obtain ⟨r, hr, hs⟩ := h
  rw [hr.recover, map_some]
  congr 1
  funext key
  exact hs.rows key

theorem MetaVolume.recover_congr (hobjects : v'.objects = v.objects) (hstream : v'.stream = v.stream) :
    v'.recover = v.recover := by
  unfold recover recoverFrom snapPos addRoot
  rw [hobjects, hstream]

/-- The record is appended: the rows of the snapshot are recovered. -/
theorem Durable.recover_restored (h : Durable v idx) {target ptr : SnapshotPointer} {obj : Index}
    (hfrom : ptr.restoredFrom = some target.location) (hptr : ptr.position = ptr.location)
    (hobj : v.objects.lookup target.location = some obj) (hobjects : v'.objects = v.objects)
    (hstream : v'.stream = v.stream ++ [.mark ptr]) :
    v'.recover.map (fun r => r.index.rows.lookup) = some fun key => obj.rows.lookup key := by
  have hrestored : Durable { v with stream := v.stream ++ [.mark ptr], view := none } _ :=
    h.restored hfrom hobj hptr fun live hlive => absurd hlive (by simp)
  rw [← hrestored.recover_rows]
  exact congrArg _ (recover_congr hobjects hstream)

theorem sameRows_iff {target : SnapshotPointer} {obj : Index} (hview : v.view = some idx)
    (hfind : v.findSnapshot name = some target) (hobj : v.objects.lookup target.location = some obj) :
    v.SameRows name ↔ (fun key => obj.rows.lookup key) = fun key => idx.rows.lookup key := by
  constructor
  · exact fun h => h target hfind obj hobj idx hview
  · intro h target' hfind' obj' hobj' live hlive
    obtain rfl := some.inj (hfind.symm.trans hfind')
    obtain rfl := some.inj (hobj.symm.trans hobj')
    obtain rfl := some.inj (hview.symm.trans hlive)
    exact h

theorem Durable.unchanged_iff (h : Durable v idx) (hview : v.view = some idx) {e : RestoreError}
    {result : MetaVolume × Except RestoreError SnapshotPointer} (hresult : result.2 = .error e)
    (houtcome : RestoreOutcome v name result) : v.Unchanged result.1 ↔ v.Harmless name e := by
  have hrecover := h.recover_rows
  cases houtcome with
  | early hearly =>
    cases hresult
    constructor
    · intro hsame
      exact ⟨hsame.staged.symm, .inl hearly⟩
    · intro hharmless
      exact ⟨hharmless.1.symm, rfl, congrArg _ (recover_congr rfl rfl)⟩
  | @recorded target ptr hfind hfrom hptr =>
    cases hresult
    obtain ⟨r, hr, -⟩ := id h
    obtain ⟨-, obj, hobj⟩ := hr.findSnapshot hfind
    let w : MetaVolume := { v with staged := ∅, stream := v.stream ++ [.mark ptr] }
    have hrestored : w.recover.map (fun r => r.index.rows.lookup) = some fun key => obj.rows.lookup key :=
      h.recover_restored hfrom hptr hobj rfl rfl
    unfold Harmless
    rw [sameRows_iff hview hfind hobj]
    constructor
    · intro hsame
      refine ⟨hsame.staged.symm, .inr ⟨rfl, ?_⟩⟩
      exact some.inj (hrestored.symm.trans (hsame.recovered.trans hrecover))
    · rintro ⟨hstaged, hearly | ⟨-, hrows⟩⟩
      · simp [MetaVolume.RestoreError.early] at hearly
      · exact ⟨hstaged.symm, rfl, by rw [hrestored, hrecover, hrows]⟩
  | unserved hnone hearly hserving =>
    cases hresult
    apply iff_of_false
    · intro hsame
      have hserved := hsame.served
      rw [hview, hnone] at hserved
      simp at hserved
    · rintro ⟨-, h | ⟨h, -⟩⟩
      · simp [hearly] at h
      · simp [hserving] at h
  | @unpublished target ptr obj v' hfind hfrom hptr hobj hstaged hobjects hstream hserved =>
    cases hresult
    have hrestored := h.recover_restored hfrom hptr hobj hobjects hstream
    unfold Harmless
    rw [sameRows_iff hview hfind hobj]
    constructor
    · intro hsame
      refine ⟨hsame.staged.symm.trans hstaged, .inr ⟨rfl, ?_⟩⟩
      exact some.inj (hrestored.symm.trans (hsame.recovered.trans hrecover))
    · rintro ⟨hold, hearly | ⟨-, hrows⟩⟩
      · simp [MetaVolume.RestoreError.early] at hearly
      · refine ⟨hstaged.trans hold.symm, ?_, by rw [hrestored, hrecover, hrows]⟩
        rw [hserved, hview]
        exact congrArg some hrows
  | restored => cases hresult

end Unchanged

/-! Calls. -/

/-- **A failed restore leaves the volume as it was exactly if nothing was staged, and it
failed early or would have changed no row.** In every state that careful runs reach, with
anything staged. -/
theorem failed_restore_unchanged_iff {v v' : MetaVolume} (h : v.New) {events : List MetaEvent}
    (hrun : Allowed step Careful v events)
    (hexec : exec step v events = some v') (hview : v'.view.isSome)
    (staged : AList fun _ : Nat × Nat => List UInt8) (fault : Option RestoreStep) (name : Name)
    {e : RestoreError} (herror : (MetaVolume.restoreSnapshot fault name { v' with staged }).2 = .error e) :
    MetaVolume.Unchanged { v' with staged } (MetaVolume.restoreSnapshot fault name { v' with staged }).1 ↔
      Harmless { v' with staged } name e := by
  obtain ⟨idx, hidx⟩ := h.durable_run hrun hexec
  have hstaged : Durable { v' with staged } idx := hidx.of_eq rfl rfl hidx.view hidx.pointers le_rfl
  obtain ⟨live, hlive⟩ := isSome_iff_exists.mp hview
  obtain rfl := hidx.view live hlive
  obtain ⟨r, hr, -⟩ := id hstaged
  exact hstaged.unchanged_iff hlive herror (hr.restoreSnapshot_outcome fault name)

/-- A file is made, a snapshot is taken, and its restore fails at the last step: no row has
changed since. -/
theorem failed_restore_unchanged_publish :
    let file : InodeRow := { isDir := false, mode := 0o644, nlink := 1 }
    ∃ v, exec step (create [118]) [.create file [], .createSnapshot [97] none] = some v ∧
      (v.restoreSnapshot (some .publish) [97]).2.isOk = false ∧ v.Unchanged (v.restoreSnapshot (some .publish) [97]).1 := by
  intro file
  have hrun : Allowed step Careful (create [118]) [.create file [], .createSnapshot [97] none] := by decide
  refine ⟨_, rfl, by decide, (failed_restore_unchanged_iff (.create [118]) hrun rfl rfl ∅ (some .publish) [97] rfl).mpr ?_⟩
  refine ⟨rfl, .inr ⟨rfl, ?_⟩⟩
  rintro _ ⟨⟩ _ ⟨⟩ _ ⟨⟩
  rfl

/-- A chunk is staged, and there is no snapshot of the name: the chunk is gone. -/
theorem failed_restore_drops_staged :
    let v : MetaVolume := { create [118] with staged := AList.singleton (8, 0) [1, 2, 3] }
    (v.restoreSnapshot none [97]).2.isOk = false ∧ (v.restoreSnapshot none [97]).1.staged.keys = [] ∧
      ¬ v.Unchanged (v.restoreSnapshot none [97]).1 := by
  refine ⟨by decide, by decide, fun h => ?_⟩
  exact absurd (congrArg AList.keys h.staged) (by decide)

end InClusterStorage.Controller
