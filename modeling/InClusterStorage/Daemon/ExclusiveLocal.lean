import Mathlib.Tactic
import InClusterStorage.Lib.Runs

/- Publish and unpublish of an exclusive-local volume on one node (`exclusive_local.go`).

   A call runs its operations one by one; any of them may fail, and between any two the
   workload may write into the overlay, a checkpoint may go on, or the daemon may restart. One
   call and one checkpoint run at a time. An unmount may be lazy: who has files open then writes on.

   The writes of the workload are numbered. A scan sees for each file the writes that are in
   `upper/`, and sends all of them; but of a file that has grown since the manifest was written
   it sends only the bytes that were added. A replay that succeeds commits what was scanned;
   one that fails counts as having committed nothing. After its replay a checkpoint looks at
   the files again and takes down the sizes and times they have by then. Each removal of the
   volume directory and each `ReleaseExclusive` is recorded with the writes in `upper/` that
   were not committed then.

   Only writes to files are modelled, no other changes in `upper/`. A scan looks at all files at
   one moment, and a `RemoveAll` that fails removes nothing. The `RenewExclusive` at the top of an
   unpublish is left out; an unpublish that is repeated because its `RemoveAll` failed sends it
   once more. -/
namespace InClusterStorage.Daemon

open Runs Option List

/-- A write of the workload. -/
structure Write where
  number : Nat
  file : Nat
  /-- the bytes before this one stay as they were -/
  start : Nat
  /-- the size of the file afterwards -/
  size : Nat
  /-- the file has another size or time than in `lower/` and in the manifest -/
  fresh : Bool
  deriving DecidableEq, Repr

/-- What the manifest has for a file: its size, and by its time the writes that it had. -/
structure FileStat where
  size : Nat
  upTo : Nat
  deriving DecidableEq, Repr

/-- What a scan finds out of date: files, with the writes that are sent. -/
abbrev ScannedFiles := List (Nat × List Nat)

def writesOf (file : Nat) (upper : List Write) : List Write := upper.filter (·.file = file)

def fileSize (file : Nat) (upper : List Write) : Nat := ((writesOf file upper).getLast?.map (·.size)).getD 0

/-- One file of a scan, with what the manifest has for it. A file that is as in `lower/` or in
the manifest is skipped. -/
def scanFile (stat : Option FileStat) (writes : List Write) : Option (List Nat) :=
  match writes.getLast?, stat with
  | none, _ => none
  | some last, none => if last.fresh then some (writes.map (·.number)) else none
  | some last, some stat =>
    if last.fresh = false ∨ ∀ w ∈ writes, w.number < stat.upTo then none
    else if stat.size < last.size then some ((writes.filter (stat.size ≤ ·.start)).map (·.number))
    else some (writes.map (·.number))

/-- `ScanUpperLayer`. -/
def scanWrites (manifest : Nat → Option FileStat) (upper : List Write) : ScannedFiles :=
  (upper.map (·.file)).filterMap fun file => (scanFile (manifest file) (writesOf file upper)).map (file, ·)

inductive CallOp where
  /-- `isUpperNonEmpty`: without a leftover, the next three operations are skipped -/
  | inspect
  | scan
  | replay
  | removeAll
  /-- the directories, the `mode` file, `materialiseVolume` -/
  | prepare
  /-- `isNotMountPoint`, and the mount unless there is one; a new mount has its own loops for
  checkpoints and renewals -/
  | mount
  /-- `getClient` -/
  | connect
  /-- `cancelFunc` and `syncWg.Wait` -/
  | cancel
  | unmount
  /-- `UpdateCheckpointManifest`; the manifest is not saved -/
  | manifest
  | release
  /-- `renewCancel` and `renewWg.Wait` -/
  | stopRenew
  deriving DecidableEq, Repr

/-- The operation after this one in `publishExclusiveLocal`, or in `unpublishExclusiveLocal`. -/
def CallOp.next (publish : Bool) : CallOp → Option CallOp
  | .inspect => some .scan
  | .scan => some .replay
  | .replay => some (if publish then .removeAll else .manifest)
  | .manifest => some .removeAll
  | .removeAll => some (if publish then .prepare else .release)
  | .prepare => some .mount
  | .mount => none
  | .connect => some .cancel
  | .cancel => some .unmount
  | .unmount => some .scan
  | .release => some .stopRenew
  | .stopRenew => none

structure Call where
  publish : Bool
  pc : CallOp
  /-- the loops of the `mountInfo` -/
  info : Option Nat := none
  /-- the manifest is read -/
  loads : Bool := false
  snapshot : ScannedFiles := []
  deriving DecidableEq, Repr

/-- A `doCheckpoint` that has made its scan. -/
structure Checkpoint where
  loop : Nat
  snapshot : ScannedFiles
  replayed : Bool := false

structure ExclusiveLocal where
  upper : List Write := []
  committed : List Nat := []
  manifest : Nat → Option FileStat := fun _ => none
  nextWrite : Nat := 0
  mounted : Bool := false
  /-- unmounted, and files of the overlay may still be open -/
  detached : Bool := false
  /-- the `mode` file is there -/
  isExclusiveLocalDir : Bool := false
  /-- the entry of `d.mounts`, by its loops -/
  handle : Option Nat := none
  /-- the renew loops that run -/
  loops : List Nat := []
  /-- the checkpoint loops that run -/
  syncs : List Nat := []
  nextLoop : Nat := 0
  call : Option Call := none
  checkpoint : Option Checkpoint := none
  /-- published, and no unpublish has succeeded since -/
  published : Bool := false
  removals : List (Bool × List Nat) := []
  releases : List (List Nat) := []

namespace ExclusiveLocal

/-- The writes in `upper/` that the controller does not have. -/
def uncommitted (s : ExclusiveLocal) : List Nat := (s.upper.map (·.number)).filter (· ∉ s.committed)

def sendRelease (s : ExclusiveLocal) : ExclusiveLocal := { s with releases := s.uncommitted :: s.releases }

/-- A call that returns an error; a publish releases the hold. -/
def failed (c : Call) (s : ExclusiveLocal) : ExclusiveLocal :=
  { if c.publish then s.sendRelease else s with call := none }

/-- The call goes on with the operation, or returns. -/
def goTo (c : Call) (pc : Option CallOp) (s : ExclusiveLocal) : ExclusiveLocal :=
  { s with call := pc.map fun pc => { c with pc } }

/-- The next operation of the call. -/
def runOp (c : Call) (ok : Bool) (s : ExclusiveLocal) : ExclusiveLocal :=
  let next := c.pc.next c.publish
  match c.pc, ok with
  | .removeAll, ok =>
    let s := { s with removals := (s.mounted, s.uncommitted) :: s.removals }
    if ok then
      { s with upper := [], manifest := fun _ => none, detached := false, isExclusiveLocalDir := false }.goTo c next
    -- unpublish only logs the error
    else if c.publish then s.failed c
    else s.goTo c next
  | .cancel, _ => { s with syncs := s.syncs.filter (some · ≠ c.info) }.goTo c next
  -- an error of `ReleaseExclusive` is only logged
  | .release, _ => s.sendRelease.goTo c next
  | .stopRenew, _ => { s with loops := s.loops.filter (some · ≠ c.info), published := false }.goTo c next
  | _, false => s.failed c
  | .inspect, true => s.goTo c (if s.upper = [] then some .prepare else next)
  | .scan, true =>
    s.goTo { c with snapshot := scanWrites (if c.loads then s.manifest else fun _ => none) s.upper } next
  | .replay, true => { s with committed := s.committed ++ c.snapshot.flatMap Prod.snd }.goTo c next
  | .prepare, true => { s with isExclusiveLocalDir := true }.goTo c next
  | .mount, true =>
    if s.mounted then { s with published := true }.goTo c next
    else
      { s with
        mounted := true
        published := true
        loops := s.nextLoop :: s.loops.filter (some · ≠ s.handle)
        syncs := s.nextLoop :: s.syncs.filter (some · ≠ s.handle)
        handle := some s.nextLoop
        nextLoop := s.nextLoop + 1 }.goTo c next
  | .connect, true | .manifest, true => s.goTo c next
  | .unmount, true => { s with mounted := false, detached := true }.goTo c next

/-- The call waits for the end of a checkpoint. -/
def waits (s : ExclusiveLocal) (c : Call) : Bool :=
  s.checkpoint.any fun cp => c.pc = .cancel ∧ c.info = some cp.loop ∨
    c.pc = .mount ∧ s.mounted = false ∧ s.handle = some cp.loop

inductive Event where
  /-- `NodePublishVolume`, up to the answer of `AcquireExclusive` -/
  | publish (acquired : Bool)
  /-- `NodeUnpublishVolume`: the handle is taken out of `d.mounts` -/
  | unpublish (loads : Bool)
  /-- the next operation of the call -/
  | run (ok : Bool)
  /-- the workload writes -/
  | write (file start size : Nat) (fresh : Bool)
  /-- `doCheckpoint`, up to its scan -/
  | scan (loop : Nat)
  | replay (ok : Bool)
  /-- `UpdateCheckpointManifest` and `SaveCheckpointManifest` -/
  | update (ok : Bool)
  | restart
  deriving DecidableEq, Repr

def step (s : ExclusiveLocal) : Event → Option ExclusiveLocal
  | .publish acquired =>
    if s.call = none then
      some (if acquired then { s with call := some { publish := true, pc := .inspect } } else s)
    else none
  | .unpublish loads =>
    if s.call = none ∧ (s.handle.isSome ∨ s.isExclusiveLocalDir) then
      some { s with handle := none, call := some { publish := false, pc := .connect, info := s.handle, loads } }
    else none
  | .run ok => s.call.bind fun c => if s.waits c then none else some (s.runOp c ok)
  | .write file start size fresh =>
    if s.mounted ∨ s.detached then
      some { s with
        upper := s.upper ++ [⟨s.nextWrite, file, start, size, fresh⟩]
        nextWrite := s.nextWrite + 1 }
    else none
  | .scan loop =>
    if s.checkpoint.isNone ∧ loop ∈ s.syncs then
      some { s with checkpoint := some { loop, snapshot := scanWrites s.manifest s.upper } }
    else none
  | .replay ok => s.checkpoint.bind fun cp =>
    if cp.replayed then none
    else if ok then
      some { s with
        committed := s.committed ++ cp.snapshot.flatMap Prod.snd
        checkpoint := some { cp with replayed := true } }
    else some { s with checkpoint := none }
  | .update ok => s.checkpoint.bind fun cp =>
    if ¬ cp.replayed then none
    else some { s with
      checkpoint := none
      manifest := fun file =>
        if ok ∧ file ∈ cp.snapshot.map (·.1) then some { size := fileSize file s.upper, upTo := s.nextWrite }
        else s.manifest file }
  | .restart => some { s with call := none, handle := none, loops := [], syncs := [], checkpoint := none }

/-! Removals of the directory, and releases of the hold. -/

/-- The directory is removed only where the overlay is not mounted and all writes in `upper/`
are committed. -/
def RemovedSafely (s : ExclusiveLocal) : Prop := ∀ r ∈ s.removals, r = (false, [])

/-- The hold is released only where all writes in `upper/` are committed. -/
def ReleasedSafely (s : ExclusiveLocal) : Prop := ∀ r ∈ s.releases, r = []

/-- A publish starts only while the overlay is not mounted. A write changes size or time of its
file; it comes neither while a publish runs, nor after the scan of an unpublish, nor into a file
that a checkpoint is sending; and where it leaves the file longer than the manifest says,
nothing below that size was changed since. A call scans or mounts only while no
checkpoint loop runs. -/
def Careful (s : ExclusiveLocal) : Event → Prop
  | .publish acquired => acquired = true → s.mounted = false
  | .write file start size fresh => fresh = true ∧
    (∀ c ∈ s.call, c.publish = false ∧ (c.pc = .connect ∨ c.pc = .cancel ∨ c.pc = .unmount ∨ c.pc = .scan)) ∧
    (∀ cp ∈ s.checkpoint, ∀ x ∈ cp.snapshot, x.1 ≠ file) ∧
    ∀ stat ∈ s.manifest file, size ≤ stat.size ∨
      stat.size ≤ start ∧ ∀ w ∈ s.upper, w.file = file → stat.upTo ≤ w.number → stat.size ≤ w.start
  | .run _ => ∀ c ∈ s.call, c.pc = .scan ∨ c.pc = .mount → s.syncs = []
  | _ => True

/-- And a publish starts only while all writes in `upper/` are committed. -/
def CarefulCommitted (s : ExclusiveLocal) (e : Event) : Prop := s.Careful e ∧ (e = .publish true → s.uncommitted = [])

instance (s : ExclusiveLocal) : ∀ e, Decidable (s.Careful e)
  | .publish _ => inferInstanceAs (Decidable (_ → _))
  | .write _ _ _ _ => inferInstanceAs (Decidable (_ ∧ _ ∧ _ ∧ _))
  | .run _ => inferInstanceAs (Decidable (∀ c ∈ s.call, _))
  | .unpublish _ | .scan _ | .replay _ | .update _ | .restart => isTrue trivial

instance (s : ExclusiveLocal) (e : Event) : Decidable (s.CarefulCommitted e) := inferInstanceAs (Decidable (_ ∧ _))

theorem uncommitted_eq_nil {s : ExclusiveLocal} : s.uncommitted = [] ↔ ∀ w ∈ s.upper, w.number ∈ s.committed := by
  simp [uncommitted, filter_eq_nil_iff]

/-- What the manifest says is committed, and what was added to a file since begins behind it. -/
structure StatOk (upper : List Write) (committed : List Nat) (nextWrite file : Nat) (stat : FileStat) : Prop where
  upTo : stat.upTo ≤ nextWrite
  committed : ∀ w ∈ upper, w.file = file → w.number < stat.upTo → w.number ∈ committed
  tail : fileSize file upper ≤ stat.size ∨ ∀ w ∈ upper, w.file = file → stat.upTo ≤ w.number → stat.size ≤ w.start

/-- What holds before the next operation of a call. -/
def Ready (s : ExclusiveLocal) (c : Call) : Prop :=
  match c.pc with
  | .connect | .cancel | .unmount => c.publish = false
  | .replay => s.mounted = false ∧ ∀ w ∈ s.upper, w.number ∈ s.committed ∨ ∃ x ∈ c.snapshot, w.number ∈ x.2
  | .manifest | .removeAll | .release => s.mounted = false ∧ ∀ w ∈ s.upper, w.number ∈ s.committed
  | .inspect | .scan | .prepare | .mount | .stopRenew => s.mounted = false

/-- The invariant; `P` says that a publish starts only while all writes are committed. -/
structure Kept (P : Prop) (s : ExclusiveLocal) : Prop where
  writes : ∀ w ∈ s.upper, w.number < s.nextWrite ∧ w.fresh = true
  stats : ∀ file, ∀ stat ∈ s.manifest file, StatOk s.upper s.committed s.nextWrite file stat
  /-- a checkpoint sends all that is not committed of a file -/
  checkpoint : ∀ cp ∈ s.checkpoint, cp.loop ∈ s.syncs ∧ ∀ x ∈ cp.snapshot, ∀ w ∈ s.upper, w.file = x.1 →
    w.number ∈ s.committed ∨ cp.replayed = false ∧ w.number ∈ x.2
  call : ∀ c ∈ s.call, s.Ready c ∧ (P → c.publish = true → ∀ w ∈ s.upper, w.number ∈ s.committed)

section
variable {P : Prop} {s s' : ExclusiveLocal} {c c' : Call} {ok : Bool} {e : Event} {upper : List Write}
  {committed : List Nat} {nextWrite file : Nat} {w : Write}

/-- What a scan does not send of a file is committed. -/
theorem scanFile_covers {stat : Option FileStat} (hfresh : ∀ w ∈ upper, w.fresh = true)
    (hstat : ∀ st ∈ stat, StatOk upper committed nextWrite file st) (hw : w ∈ writesOf file upper) :
    w.number ∈ committed ∨ ∃ ids, scanFile stat (writesOf file upper) = some ids ∧ w.number ∈ ids := by
  obtain ⟨hmem, hfile⟩ := mem_filter.mp hw
  have hfile : w.file = file := of_decide_eq_true hfile
  unfold scanFile
  cases hlast : (writesOf file upper).getLast? with
  | none =>
    rw [getLast?_eq_none_iff.mp hlast] at hw
    cases hw
  | some last =>
    have hlastFresh : last.fresh = true := hfresh last (mem_filter.mp (mem_of_getLast? hlast)).1
    have hall : w.number ∈ (writesOf file upper).map (·.number) := mem_map_of_mem hw
    cases stat with
    | none => exact .inr ⟨_, if_pos hlastFresh, hall⟩
    | some st =>
      have hst := hstat st rfl
      by_cases hnew : w.number < st.upTo
      · exact .inl (hst.committed w hmem hfile hnew)
      simp only [hlastFresh, Bool.true_eq_false, false_or]
      split_ifs with hold hgrown
      · exact absurd (hold w hw) hnew
      · have htail := hst.tail.resolve_left (by simp only [fileSize, hlast, map_some, getD_some]; omega)
        refine .inr ⟨_, rfl, mem_map_of_mem (mem_filter.mpr ⟨hw, ?_⟩)⟩
        exact decide_eq_true (htail w hmem hfile (by omega))
      · exact .inr ⟨_, rfl, hall⟩

theorem scanWrites_covers {manifest : Nat → Option FileStat} (hfresh : ∀ w ∈ upper, w.fresh = true)
    (hstats : ∀ file, ∀ stat ∈ manifest file, StatOk upper committed nextWrite file stat) (hw : w ∈ upper) :
    (w.number ∈ committed ∨ ∃ x ∈ scanWrites manifest upper, w.number ∈ x.2) ∧
      ∀ x ∈ scanWrites manifest upper, w.file = x.1 → w.number ∈ committed ∨ w.number ∈ x.2 := by
  obtain hdone | ⟨ids, hscan, hids⟩ := scanFile_covers hfresh (hstats w.file) (mem_filter.mpr ⟨hw, by simp⟩)
  · exact ⟨.inl hdone, fun _ _ _ => .inl hdone⟩
  · refine ⟨.inr ⟨(w.file, ids), mem_filterMap.mpr ⟨w.file, mem_map_of_mem hw, ?_⟩, hids⟩, fun x hx hfile => ?_⟩
    · rw [hscan]
      rfl
    · obtain ⟨file, -, hx⟩ := mem_filterMap.mp hx
      obtain ⟨ids', hids', rfl⟩ := map_eq_some_iff.mp hx
      obtain rfl : w.file = file := hfile
      cases hscan.symm.trans hids'
      exact .inr hids

/-- A call brings about what its next operation needs: an unpublish scans after the unmount, and
then nothing is written until it returns. -/
theorem Kept.ready_runOp (hs : s.Kept P) (hc : s.call = some c) (h : (s.runOp c ok).call = some c') :
    (s.runOp c ok).Ready c' := by
  have hready := (hs.call c hc).1
  obtain ⟨publish, pc, info, loads, snapshot⟩ := c
  cases pc with
  | connect | cancel => cases ok <;> cases publish <;> cases hready <;> cases h <;> rfl
  | unmount | prepare => cases ok <;> cases publish <;> cases h <;> first | rfl | exact hready
  | manifest => cases ok <;> cases publish <;> cases h <;> exact hready
  | release =>
    cases h
    exact hready.1
  | stopRenew => cases h
  | inspect =>
    cases ok with
    | false => cases publish <;> cases h
    | true =>
      simp only [runOp] at h ⊢
      split_ifs at h ⊢ <;> cases h <;> exact hready
  | scan =>
    cases ok with
    | false => cases publish <;> cases h
    | true =>
      cases h
      have hstats (file stat) (h : stat ∈ (if loads then s.manifest else fun _ => none) file) :
          StatOk s.upper s.committed s.nextWrite file stat := by
        cases loads with
        | false => cases h
        | true => exact hs.stats file stat h
      exact ⟨hready, fun w hw => (scanWrites_covers (fun w hw => (hs.writes w hw).2) hstats hw).1⟩
  | replay =>
    cases ok with
    | false => cases publish <;> cases h
    | true =>
      have hall : ∀ w ∈ s.upper, w.number ∈ s.committed ++ snapshot.flatMap Prod.snd := fun w hw =>
        mem_append.mpr ((hready.2 w hw).imp_right fun ⟨x, hx, hn⟩ => mem_flatMap.mpr ⟨x, hx, hn⟩)
      cases publish <;> cases h <;> exact ⟨hready.1, hall⟩
  | removeAll =>
    cases ok <;> cases publish <;> cases h
    · exact hready
    · exact ⟨hready.1, nofun⟩
    · exact hready.1
  | mount =>
    cases ok with
    | false => cases publish <;> cases h
    | true =>
      simp only [runOp] at h
      split_ifs at h <;> cases h

/-- What an operation of a call does to the other fields, and what it records; the proofs given
here are for an operation that leaves a field as it is. -/
structure RunOp (c : Call) (s s' : ExclusiveLocal) : Prop where
  upper : s'.upper = [] ∧ s'.manifest = (fun _ => none) ∨ s'.upper = s.upper ∧ s'.manifest = s.manifest := by
    exact .inr ⟨rfl, rfl⟩
  committed : s.committed ⊆ s'.committed := by exact fun _ h => h
  nextWrite : s'.nextWrite = s.nextWrite := by rfl
  checkpoint : s'.checkpoint = s.checkpoint := by rfl
  syncs : ∀ cp ∈ s.checkpoint, s.waits c = false → cp.loop ∈ s.syncs → cp.loop ∈ s'.syncs := by exact fun _ _ _ h => h
  call : ∀ c' ∈ s'.call, c'.publish = c.publish
  removals : s'.removals = s.removals ∨ c.pc = .removeAll ∧ s'.removals = (s.mounted, s.uncommitted) :: s.removals := by
    exact .inl rfl
  releases : s'.releases = s.releases ∨
    (c.publish = true ∨ c.pc = .release) ∧ s'.releases = s.uncommitted :: s.releases := by exact .inl rfl

theorem publish_of_goTo {pc : Option CallOp} : ∀ c' ∈ (s.goTo c pc).call, c'.publish = c.publish := by
  intro c' hc'
  obtain ⟨pc, -, rfl⟩ := map_eq_some_iff.mp hc'
  rfl

theorem runOp_runs (c : Call) (ok : Bool) (s : ExclusiveLocal) : RunOp c s (s.runOp c ok) := by
  obtain ⟨publish, pc, info, loads, snapshot⟩ := c
  have hmem {l : Nat} {h : Option Nat} (hl : l ∈ s.syncs) (hne : h ≠ some l) : l ∈ s.syncs.filter (some · ≠ h) :=
    mem_filter.mpr ⟨hl, decide_eq_true (Ne.symm hne)⟩
  have hfailed : RunOp ⟨publish, pc, info, loads, snapshot⟩ s (s.failed ⟨publish, pc, info, loads, snapshot⟩) := by
    cases publish with
    | false => exact { call := nofun }
    | true => exact { call := nofun, releases := .inr ⟨.inl rfl, rfl⟩ }
  cases pc with
  | inspect | scan | prepare | connect | unmount | manifest =>
    cases ok with
    | false => exact hfailed
    | true => exact { call := publish_of_goTo }
  | replay =>
    cases ok with
    | false => exact hfailed
    | true => exact { committed := subset_append_left _ _, call := publish_of_goTo }
  | removeAll =>
    cases ok <;> cases publish
    case true.false | true.true =>
      exact { upper := .inl ⟨rfl, rfl⟩, call := publish_of_goTo, removals := .inr ⟨rfl, rfl⟩ }
    case false.false => exact { call := publish_of_goTo, removals := .inr ⟨rfl, rfl⟩ }
    case false.true => exact { call := nofun, removals := .inr ⟨rfl, rfl⟩, releases := .inr ⟨.inl rfl, rfl⟩ }
  | release => exact { call := publish_of_goTo, releases := .inr ⟨.inr rfl, rfl⟩ }
  | stopRenew => exact { call := nofun }
  | cancel =>
    refine { syncs := fun cp hcp hwaits hloop => hmem hloop fun heq => ?_, call := publish_of_goTo }
    have hinfo : info = some cp.loop := heq
    simp [waits, mem_def.mp hcp, hinfo] at hwaits
  | mount =>
    cases ok with
    | false => exact hfailed
    | true =>
      simp only [runOp]
      split_ifs with hmounted
      · exact { call := nofun }
      · refine { syncs := fun cp hcp hwaits hloop => mem_cons_of_mem _ (hmem hloop fun heq => ?_), call := nofun }
        simp [waits, mem_def.mp hcp, heq, hmounted] at hwaits

theorem StatOk.mono {stat : FileStat} {committed' : List Nat} (h : StatOk upper committed nextWrite file stat)
    (hsub : committed ⊆ committed') : StatOk upper committed' nextWrite file stat :=
  { h with committed := fun w hw hfile hlt => hsub (h.committed w hw hfile hlt) }

theorem Ready.mono {committed' : List Nat} {checkpoint : Option Checkpoint} (h : s.Ready c)
    (hsub : s.committed ⊆ committed') : { s with committed := committed', checkpoint }.Ready c := by
  obtain ⟨publish, pc, info, loads, snapshot⟩ := c
  cases pc with
  | replay => exact ⟨h.1, fun w hw => (h.2 w hw).imp_left fun hold => hsub hold⟩
  | manifest | removeAll | release => exact ⟨h.1, fun w hw => hsub (h.2 w hw)⟩
  | _ => exact h

theorem Kept.runOp (hs : s.Kept P) (hc : s.call = some c) (hwaits : s.waits c = false) : (s.runOp c ok).Kept P := by
  have hop := runOp_runs c ok s
  have hcp (cp) (hcp : cp ∈ (s.runOp c ok).checkpoint) : cp ∈ s.checkpoint := hop.checkpoint ▸ hcp
  have hready (c') (hc' : c' ∈ (s.runOp c ok).call) := hs.ready_runOp hc hc'
  obtain ⟨hnil, hnone⟩ | ⟨hsame, hmanifest⟩ := hop.upper
  · exact ⟨by simp [hnil], by simp [hnone], fun cp h =>
      ⟨hop.syncs cp (hcp cp h) hwaits (hs.checkpoint cp (hcp cp h)).1, by simp [hnil]⟩,
      fun c' hc' => ⟨hready c' hc', by simp [hnil]⟩⟩
  · refine ⟨by rw [hsame, hop.nextWrite]; exact hs.writes, fun file stat hstat => ?_, fun cp h => ?_,
      fun c' hc' => ⟨hready c' hc', fun hP hpublish w hw => ?_⟩⟩
    · rw [hsame, hop.nextWrite]
      exact (hs.stats file stat (hmanifest ▸ hstat)).mono hop.committed
    · obtain ⟨hloop, hcovers⟩ := hs.checkpoint cp (hcp cp h)
      refine ⟨hop.syncs cp (hcp cp h) hwaits hloop, fun x hx w hw hfile => ?_⟩
      exact (hcovers x hx w (hsame ▸ hw) hfile).imp_left fun h => hop.committed h
    · exact hop.committed ((hs.call c hc).2 hP (hop.call c' hc' ▸ hpublish) w (hsame ▸ hw))

/-- Another write of a file. -/
theorem StatOk.write {stat : FileStat} (h : StatOk upper committed nextWrite file stat) (hw : w.number = nextWrite)
    (hok : w.file = file → w.size ≤ stat.size ∨
      stat.size ≤ w.start ∧ ∀ w' ∈ upper, w'.file = file → stat.upTo ≤ w'.number → stat.size ≤ w'.start) :
    StatOk (upper ++ [w]) committed (nextWrite + 1) file stat := by
  have hupTo := h.upTo
  refine ⟨by omega, forall_mem_append.mpr ⟨h.committed, ?_⟩, ?_⟩
  · simp only [mem_singleton, forall_eq]
    omega
  · simp only [forall_mem_append, mem_singleton, forall_eq]
    by_cases hfile : w.file = file
    · refine (hok hfile).imp (fun hsize => ?_) fun ⟨hstart, hall⟩ => ⟨hall, fun _ _ => hstart⟩
      simpa [fileSize, writesOf, hfile] using hsize
    · refine h.tail.imp (fun hsize => ?_) fun hall => ⟨hall, fun heq => absurd heq hfile⟩
      simpa [fileSize, writesOf, hfile] using hsize

theorem Kept.step (hs : s.Kept P) (hok : s.Careful e) (hP : P → e = .publish true → s.uncommitted = [])
    (h : s.step e = some s') : s'.Kept P := by
  cases e with
  | run ok =>
    obtain ⟨c, hc, hrun⟩ := bind_eq_some_iff.mp h
    split_ifs at hrun with hwaits
    cases hrun
    exact hs.runOp hc (by simpa using hwaits)
  | publish acquired =>
    simp only [ExclusiveLocal.step] at h
    split_ifs at h with hnone hacquired <;> cases h
    · refine { hs with call := fun c hc => ?_ }
      cases hc
      exact ⟨hok hacquired, fun hp _ => uncommitted_eq_nil.mp (hP hp (by rw [hacquired]))⟩
    · exact hs
  | unpublish loads =>
    simp only [ExclusiveLocal.step] at h
    split_ifs at h
    cases h
    exact { hs with call := fun c hc => by cases hc; exact ⟨rfl, nofun⟩ }
  | write file start size fresh =>
    obtain ⟨hfresh, hcall, hsending, hstat⟩ := hok
    simp only [ExclusiveLocal.step] at h
    split_ifs at h
    cases h
    refine ⟨?_, fun file' stat hmem => ?_, fun cp hcp => ?_, fun c hc => ?_⟩
    · simp only [forall_mem_append, mem_singleton, forall_eq]
      exact ⟨fun w hw => ⟨Nat.lt_succ_of_lt (hs.writes w hw).1, (hs.writes w hw).2⟩, Nat.lt_succ_self _, hfresh⟩
    · refine (hs.stats file' stat hmem).write rfl ?_
      rintro rfl
      exact hstat stat hmem
    · obtain ⟨hloop, hcovers⟩ := hs.checkpoint cp hcp
      refine ⟨hloop, fun x hx => ?_⟩
      simp only [forall_mem_append, mem_singleton, forall_eq]
      exact ⟨hcovers x hx, fun heq => absurd heq.symm (hsending cp hcp x hx)⟩
    · obtain ⟨hunpublish, hpc⟩ := hcall c hc
      have hready := (hs.call c hc).1
      obtain ⟨publish, pc, info, loads, snapshot⟩ := c
      refine ⟨?_, fun _ hpublish => nomatch hunpublish.symm.trans hpublish⟩
      obtain rfl | rfl | rfl | rfl := hpc <;> exact hready
  | scan loop =>
    simp only [ExclusiveLocal.step] at h
    split_ifs at h with hfree
    cases h
    refine { hs with checkpoint := fun cp hcp => ?_, call := hs.call }
    cases hcp
    refine ⟨hfree.2, fun x hx w hw hfile => ?_⟩
    have hcovers := (scanWrites_covers (fun w hw => (hs.writes w hw).2) hs.stats hw).2 x hx hfile
    exact hcovers.imp_right fun h => ⟨rfl, h⟩
  | replay ok =>
    obtain ⟨cp, hcp, hreplay⟩ := bind_eq_some_iff.mp h
    split_ifs at hreplay with hreplayed hgood <;> cases hreplay
    · have hsub : s.committed ⊆ s.committed ++ cp.snapshot.flatMap Prod.snd := subset_append_left _ _
      refine ⟨hs.writes, fun file stat hstat => (hs.stats file stat hstat).mono hsub, fun cp' hcp' => ?_, fun c hc =>
        ⟨(hs.call c hc).1.mono hsub, fun hp hpublish w hw => hsub ((hs.call c hc).2 hp hpublish w hw)⟩⟩
      cases hcp'
      obtain ⟨hloop, hcovers⟩ := hs.checkpoint cp hcp
      refine ⟨hloop, fun x hx w hw hfile => .inl ?_⟩
      obtain hold | ⟨-, hsent⟩ := hcovers x hx w hw hfile
      · exact hsub hold
      · exact mem_append_right _ (mem_flatMap.mpr ⟨x, hx, hsent⟩)
    · exact { hs with checkpoint := nofun, call := hs.call }
  | update ok =>
    obtain ⟨cp, hcp, hupdate⟩ := bind_eq_some_iff.mp h
    split_ifs at hupdate with hreplayed
    cases hupdate
    refine { hs with stats := fun file stat hstat => ?_, checkpoint := nofun, call := hs.call }
    dsimp only at hstat
    split_ifs at hstat with hsent
    · cases hstat
      obtain ⟨x, hx, rfl⟩ := mem_map.mp hsent.2
      refine ⟨le_rfl, fun w hw hfile _ => ?_, .inl le_rfl⟩
      obtain hdone | ⟨hfalse, -⟩ := (hs.checkpoint cp hcp).2 x hx w hw hfile
      · exact hdone
      · cases hfalse.symm.trans hreplayed
    · exact hs.stats file stat hstat
  | restart =>
    cases h
    exact { hs with checkpoint := nofun, call := nofun }

/-- What is recorded in a step is safe. -/
theorem Kept.records (hs : s.Kept P) (h : s.step e = some s') :
    (s.RemovedSafely → s'.RemovedSafely) ∧ (P → s.ReleasedSafely → s'.ReleasedSafely) := by
  cases e with
  | run ok =>
    obtain ⟨c, hc, hrun⟩ := bind_eq_some_iff.mp h
    split_ifs at hrun
    cases hrun
    obtain ⟨hready, hcommitted⟩ := hs.call c hc
    have hop := runOp_runs c ok s
    refine ⟨fun hr => ?_, fun hp hr => ?_⟩
    · obtain hsame | ⟨hpc, hremoved⟩ := hop.removals
      · exact fun r hmem => hr r (hsame ▸ hmem)
      · simp only [Ready, hpc] at hready
        rw [RemovedSafely, hremoved, hready.1, uncommitted_eq_nil.mpr hready.2]
        exact forall_mem_cons.mpr ⟨rfl, hr⟩
    · obtain hsame | ⟨hsends, hreleased⟩ := hop.releases
      · exact fun r hmem => hr r (hsame ▸ hmem)
      · have hall : ∀ w ∈ s.upper, w.number ∈ s.committed := by
          obtain hpublish | hpc := hsends
          · exact hcommitted hp hpublish
          · simp only [Ready, hpc] at hready
            exact hready.2
        rw [ReleasedSafely, hreleased, uncommitted_eq_nil.mpr hall]
        exact forall_mem_cons.mpr ⟨rfl, hr⟩
  | replay ok | update ok =>
    obtain ⟨cp, hcp, hstep⟩ := bind_eq_some_iff.mp h
    split_ifs at hstep <;> cases hstep <;> exact ⟨id, fun _ => id⟩
  | restart =>
    cases h
    exact ⟨id, fun _ => id⟩
  | publish acquired | unpublish loads | write file start size fresh | scan loop =>
    simp only [ExclusiveLocal.step] at h
    split_ifs at h <;> cases h <;> exact ⟨id, fun _ => id⟩

end

def publishRun : List Event := .publish true :: replicate 3 (.run true)

/-- A file of three bytes, a checkpoint, and two bytes more. -/
def appendRun : List Event :=
  publishRun ++ [.write 0 0 3 true, .scan 0, .replay true, .update true, .write 0 3 5 true]

/-- The same writes, the second one between the scan of the checkpoint and its manifest. -/
def lateRun : List Event :=
  publishRun ++ [.write 0 0 3 true, .scan 0, .write 0 3 5 true, .replay true, .update true]

/-- An unpublish, up to its `RemoveAll` and on. -/
def unpublishRun (removed : Bool) : List Event :=
  .unpublish true :: replicate 6 (.run true) ++ [.run removed, .run true, .run true]

def unpublishing (s : ExclusiveLocal) : Bool := s.call.any fun c => !c.publish

/-- No renew loop runs for a mount that is unpublished; one that runs sends `RenewExclusive`
whenever its ticker fires. -/
def NoStrayRenewal (s : ExclusiveLocal) : Prop := s.published = false → s.unpublishing = false → s.loops = []

/-- No attempt to unpublish fails. -/
def AttemptSucceeds (s : ExclusiveLocal) (e : Event) : Prop :=
  e = .run false → ∀ c ∈ s.call, c.publish = true ∨ c.pc = .cancel ∨ c.pc = .removeAll ∨ c.pc = .release ∨ c.pc = .stopRenew

instance (s : ExclusiveLocal) (e : Event) : Decidable (s.AttemptSucceeds e) := inferInstanceAs (Decidable (_ → _))

/-- The loop of the handle, or of the handle that an unpublish has taken. -/
def owner (s : ExclusiveLocal) : Option Nat :=
  match s.call with
  | some c => if c.publish then s.handle else c.info
  | none => s.handle

/-- Whether the operation is one of a publish, or of an unpublish. -/
def isOf (publish : Bool) : CallOp → Bool
  | .inspect | .prepare | .mount => publish
  | .scan | .replay | .removeAll => true
  | .connect | .cancel | .unmount | .manifest | .release | .stopRenew => !publish

structure Renewals (s : ExclusiveLocal) : Prop where
  owned : ∀ l ∈ s.loops, s.owner = some l
  unpublished : s.NoStrayRenewal
  ops : ∀ c, s.call = some c → isOf c.publish c.pc = true

section
variable {s s' : ExclusiveLocal} {c : Call} {ok : Bool}

/-- The call goes on. -/
theorem Renewals.onward {pc : CallOp} {snapshot : ScannedFiles} (h : s.Renewals) (hc : s.call = some c)
    (hsame : s'.loops = s.loops ∧ s'.handle = s.handle ∧ s'.published = s.published)
    (hcall : s'.call = some { c with pc, snapshot }) (hpc : isOf c.publish pc = true) : s'.Renewals := by
  obtain ⟨hloops, hhandle, hpublished⟩ := hsame
  refine ⟨fun l hl => ?_, ?_, fun c' hc' => ?_⟩
  · simpa [owner, hc, hcall, hhandle] using h.owned l (hloops ▸ hl)
  · simpa [NoStrayRenewal, unpublishing, hc, hcall, hpublished, hloops] using h.unpublished
  · cases hcall.symm.trans hc'
    exact hpc

/-- A publish fails. -/
theorem Renewals.failed (h : s.Renewals) (hc : s.call = some c) (hpublish : c.publish = true) : (s.failed c).Renewals := by
  simp only [ExclusiveLocal.failed, if_pos hpublish]
  refine ⟨fun l hl => ?_, fun hpublished _ => h.unpublished hpublished ?_, nofun⟩
  · simpa [owner, hc, hpublish, sendRelease] using h.owned l hl
  · simp [unpublishing, hc, hpublish]

theorem Renewals.runOp (h : s.Renewals) (hc : s.call = some c) (hok : s.AttemptSucceeds (.run ok)) :
    (s.runOp c ok).Renewals := by
  have hpc := h.ops c hc
  have howned := h.owned
  have hfails (hfalse : ok = false) := hok (by rw [hfalse]) c hc
  obtain ⟨publish, pc, info, loads, snapshot⟩ := c
  cases pc with
  | inspect =>
    cases ok with
    | false => exact h.failed hc hpc
    | true =>
      simp only [ExclusiveLocal.runOp]
      split_ifs
      · exact h.onward hc ⟨rfl, rfl, rfl⟩ rfl hpc
      · exact h.onward hc ⟨rfl, rfl, rfl⟩ rfl rfl
  | scan | replay | prepare | connect | unmount | manifest =>
    cases ok with
    | false => exact h.failed hc (by simpa using hfails rfl)
    | true => cases publish <;> cases hpc <;> exact h.onward hc ⟨rfl, rfl, rfl⟩ rfl rfl
  | removeAll =>
    have hrecorded (removals) : { s with removals }.Renewals := ⟨h.owned, h.unpublished, h.ops⟩
    cases ok <;> cases publish
    all_goals first
      | exact h.onward hc ⟨rfl, rfl, rfl⟩ rfl rfl
      | exact (hrecorded _).failed hc rfl
  | cancel | release => cases publish <;> cases hpc; exact h.onward hc ⟨rfl, rfl, rfl⟩ rfl rfl
  | mount =>
    obtain rfl : publish = true := hpc
    have hhandle : ∀ l ∈ s.loops, s.handle = some l := by simpa [owner, hc] using howned
    cases ok with
    | false => exact h.failed hc rfl
    | true =>
      simp only [ExclusiveLocal.runOp]
      split_ifs
      · exact ⟨hhandle, nofun, nofun⟩
      · refine ⟨fun l hl => ?_, nofun, nofun⟩
        -- the loops of the handle that is replaced are stopped
        obtain rfl | hl := mem_cons.mp hl
        · rfl
        · obtain ⟨hold, hne⟩ := mem_filter.mp hl
          exact absurd (hhandle l hold).symm (of_decide_eq_true hne)
  | stopRenew =>
    cases publish <;> cases hpc
    have hstopped : s.loops.filter (some · ≠ info) = [] := by
      refine filter_eq_nil_iff.mpr fun l hl => ?_
      have hinfo : info = some l := by simpa [owner, hc] using howned l hl
      simp [hinfo]
    refine ⟨fun l hl => ?_, fun _ _ => hstopped, nofun⟩
    change l ∈ s.loops.filter (some · ≠ info) at hl
    rw [hstopped] at hl
    cases hl

theorem Renewals.step {e : Event} (h : s.Renewals) (hok : s.AttemptSucceeds e) (hs : s.step e = some s') : s'.Renewals := by
  cases e with
  | run ok =>
    obtain ⟨c, hc, hop⟩ := bind_eq_some_iff.mp hs
    split_ifs at hop
    cases hop
    exact h.runOp hc hok
  | replay ok | update ok =>
    obtain ⟨cp, hcp, hstep⟩ := bind_eq_some_iff.mp hs
    split_ifs at hstep <;> cases hstep <;> exact ⟨h.owned, h.unpublished, h.ops⟩
  | write file start size fresh | scan loop =>
    simp only [ExclusiveLocal.step] at hs
    split_ifs at hs
    cases hs
    exact ⟨h.owned, h.unpublished, h.ops⟩
  | publish acquired =>
    simp only [ExclusiveLocal.step] at hs
    split_ifs at hs with hnone hacquired <;> cases hs
    · refine ⟨fun l hl => ?_, fun hpublished _ => h.unpublished hpublished ?_, fun c hc => by cases hc; rfl⟩
      · simpa [owner, hnone] using h.owned l hl
      · simp [unpublishing, hnone]
    · exact h
  | unpublish loads =>
    simp only [ExclusiveLocal.step] at hs
    split_ifs at hs with hstart
    cases hs
    refine ⟨fun l hl => ?_, nofun, fun c hc => by cases hc; rfl⟩
    simpa [owner, hstart.1] using h.owned l hl
  | restart =>
    cases hs
    exact ⟨nofun, fun _ _ => rfl, nofun⟩

end

/-- **An unpublished mount does not renew its hold** in every run in which no attempt to unpublish
fails. -/
theorem no_stray_renewal (es : List Event) (h : Allowed step AttemptSucceeds {} es) :
    Throughout step NoStrayRenewal {} es :=
  h.throughout (I := Renewals) (fun _ hi => hi.unpublished) (fun _ _ _ hi hok hs => hi.step hok hs)
    ⟨nofun, fun _ _ => rfl, nofun⟩

theorem unpublish_stops_renewals :
    Allowed step AttemptSucceeds {} (appendRun ++ unpublishRun true) ∧
      Throughout step NoStrayRenewal {} (appendRun ++ unpublishRun true) := by
  have hok : Allowed step AttemptSucceeds {} (appendRun ++ unpublishRun true) := by decide +kernel
  exact ⟨hok, no_stray_renewal _ hok⟩

/-- The first attempt to unpublish fails and leaves no handle; the second one succeeds and stops
no loop. -/
theorem renewals_go_on :
    (exec step {} (publishRun ++ [.unpublish true, .run false] ++ unpublishRun true)).map
      (fun s => (s.published, s.call, s.releases, s.loops)) = some (false, none, [[]], [0]) := by decide +kernel

end ExclusiveLocal

end InClusterStorage.Daemon
