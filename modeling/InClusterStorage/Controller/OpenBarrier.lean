import InClusterStorage.Controller.ConcurrentWrites

/- Close-to-open consistency: what `Open` sees of the writes that returned before it.

   `openBarrier` returns once the file has nothing staged and no sync of it is in flight, or
   once a sync of its own has succeeded. `Open` then reads the attributes in another section.
   Beside it run writes and syncs of the file, section by section as in `ConcurrentWrites`,
   and syncs of other files, which share `syncInProgress`. A goroutine that found nothing to
   sync calls `finishSync` too, after it released the mutex. Which call or timer starts a sync
   is left open here: one can start whenever `syncInProgress` is clear.

   1. `open_sees_writes`: along every run whose steps meet `Apart`, the rows that `Open` and
      later reads see are those of the file after some of the writes, in order, among them all
      that returned before `Open` was called.
   2. `open_misses_writes`: without the condition, an older sync commits over a newer one
      after the barrier, or before it, and a write that merged a base chunk it had read too
      early has put it over a write that was committed. -/
namespace InClusterStorage.Controller

open Bytes List Option File WriteState Runs

/-! The machine. -/

inductive OpenStage where
  /-- in the loop of the barrier -/
  | barrier
  /-- a sync of its own is running -/
  | syncing
  /-- past the barrier, before the attributes are read -/
  | passed
  /-- the size in the attributes -/
  | opened (size : Nat)
  | failed
  deriving DecidableEq, Repr

structure OpenCall where
  /-- how many writes had returned when it was called -/
  before : Nat
  stage : OpenStage := .barrier
  deriving DecidableEq, Repr

structure OpenState where
  files : WriteState
  syncInProgress : Bool := false
  /-- the file is in `syncingInodes` -/
  inFlight : Bool := false
  /-- syncs of other files only, between their snapshot and `finishSync` -/
  others : Nat := 0
  /-- goroutines that found nothing to sync and come to `finishSync` next -/
  skips : Nat := 0
  /-- the calls of `Open` that run the syncs of the file; `none` is something else -/
  owners : List (Option Nat) := []
  opens : List OpenCall := []

inductive OpenEvent where
  /-- a section of a write, or of a sync of the file that is not part of `Open` -/
  | files (e : WriteEvent)
  | syncOthers
  | finishOthers
  | skip
  | finishSkip
  | openFile
  /-- one turn of the loop; `sealOk` says whether the active pack can be sealed -/
  | barrier (call : Nat) (sealOk : Bool)
  /-- the rest of `Open` -/
  | attributes (call : Nat)
  /-- the volume is degraded, or the time is over -/
  | giveUp (call : Nat)
  deriving DecidableEq, Repr

namespace OpenState

def setStage (x : OpenState) (call : Nat) (stage : OpenStage) : List OpenCall :=
  x.opens.modify call fun c => { c with stage }

/-- The goroutine that ran the sync goes on. -/
def ended (x : OpenState) (sync : Nat) (stage : OpenStage) : List OpenCall :=
  match x.owners[sync]? with
  | some (some call) => x.setStage call stage
  | _ => x.opens

/-- The end of a sync of the file. -/
def finished (x : OpenState) (sync : Nat) (stage : OpenStage) (files : WriteState) : OpenState :=
  { x with
    files
    syncInProgress := false
    inFlight := false
    owners := x.owners.eraseIdx sync
    opens := x.ended sync stage }

/-- A snapshot of the file is taken. -/
def beginSync (limits : Limits) (x : OpenState) (owner : Option Nat) : Option OpenState :=
  (x.files.step limits .snapshot).map fun files =>
    { x with files, syncInProgress := true, inFlight := true, owners := x.owners ++ [owner] }

def step (limits : Limits) (x : OpenState) : OpenEvent → Option OpenState
  | .files .snapshot => if x.syncInProgress then none else x.beginSync limits none
  | .files (.finish sync) => (x.files.step limits (.finish sync)).map (x.finished sync .passed)
  | .files (.fail sync) => (x.files.step limits (.fail sync)).map (x.finished sync .failed)
  | .files e => (x.files.step limits e).map fun files => { x with files }
  | .syncOthers => if x.syncInProgress then none else some { x with syncInProgress := true, others := x.others + 1 }
  | .finishOthers =>
    if x.others = 0 then none else some { x with syncInProgress := false, others := x.others - 1 }
  | .skip => if x.syncInProgress then none else some { x with skips := x.skips + 1 }
  | .finishSkip => if x.skips = 0 then none else some { x with syncInProgress := false, skips := x.skips - 1 }
  | .openFile => some { x with opens := x.opens ++ [{ before := x.files.merged.length }] }
  | .barrier call sealOk =>
    match x.opens[call]? with
    | some ⟨_, .barrier⟩ =>
      if x.files.file.stagedChunks.entries.length = 0 ∧ x.inFlight = false then
        some { x with opens := x.setStage call .passed }
      else if x.inFlight ∨ x.syncInProgress then none
      else if sealOk then (x.beginSync limits (some call)).map fun x => { x with opens := x.setStage call .syncing }
      else some { x with opens := x.setStage call .failed, skips := x.skips + 1 }
    | _ => none
  | .attributes call =>
    match x.opens[call]? with
    | some ⟨_, .passed⟩ => some { x with opens := x.setStage call (.opened x.files.file.row.size) }
    | _ => none
  | .giveUp call =>
    match x.opens[call]? with
    | some ⟨_, .barrier⟩ | some ⟨_, .passed⟩ => some { x with opens := x.setStage call .failed }
    | _ => none

end OpenState

/-- The content after the first writes. -/
def WriteState.after (content : List UInt8) (s : WriteState) (count : Nat) : List UInt8 :=
  (s.merged.take count).foldl (fun c w => splice c w.offset w.data) content

/-- What the rows hold is what reads return. -/
def File.Reads (limits : Limits) (f : File) (content : List UInt8) : Prop :=
  f.row.size = content.length ∧
    ∀ offset length, 0 < length → f.readFile limits offset length = slice content offset (offset + length)

namespace OpenState

/-- Who is past the barrier sees all writes that returned before the call, and as many of
the others as were merged first; so do the attributes. -/
def Sees (limits : Limits) (content : List UInt8) (x : OpenState) : Prop :=
  ∀ call ∈ x.opens,
    match call.stage with
    | .passed => ∃ count, call.before ≤ count ∧ count ≤ x.files.merged.length ∧
        x.files.file.Reads limits (x.files.after content count)
    | .opened size => (∃ count, call.before ≤ count ∧ count ≤ x.files.merged.length ∧
          x.files.file.Reads limits (x.files.after content count)) ∧
        ∃ count, call.before ≤ count ∧ count ≤ x.files.merged.length ∧ size = (x.files.after content count).length
    | _ => True

/-- Writes and syncs of the file keep apart, and `finishSync` without a snapshot is called
only while no sync is in progress. -/
def Apart (limits : Limits) (x : OpenState) : OpenEvent → Prop
  | .files .snapshot => True
  | .files e => x.files.Separate limits e
  | .finishSkip => x.files.syncs = [] ∧ x.others = 0
  | _ => True

instance (limits : Limits) (x : OpenState) (e : OpenEvent) : Decidable (x.Apart limits e) := by
  unfold Apart
  split <;> infer_instance

end OpenState

/-! Reads. -/

section Rows

variable {limits : Limits} {cs : Nat} {f f' : File} {content : List UInt8}

theorem File.readFile_congr (h : f.RowsKept f') (offset length : Nat) :
    f'.readFile limits offset length = f.readFile limits offset length := by
  cases f
  cases f'
  cases h.1
  cases h.2
  rfl

theorem File.Reads.of_rows (h : f.Reads limits content) (hrows : f.RowsKept f') : f'.Reads limits content := by
  refine ⟨hrows.1 ▸ h.1, fun offset length hpos => ?_⟩
  rw [readFile_congr hrows]
  exact h.2 offset length hpos

theorem Represents.reads_fsync (h : Represents limits cs f content) : (f.fsync limits).Reads limits content := by
  refine ⟨h.synced.1, fun offset length hpos => ?_⟩
  rw [h.synced.2, if_neg (by omega)]

theorem Represents.reads (h : Represents limits cs f content) (hnone : f.stagedChunks.entries.length = 0) :
    f.Reads limits content := by
  have hsynced := h.reads_fsync
  rw [File.fsync, if_pos hnone] at hsynced
  exact hsynced.of_rows ⟨rfl, rfl⟩

variable {snap : Snapshot}

theorem File.appendSyncRecords_rows (h : f.RowsKept f') :
    (f.appendSyncRecords limits snap).RowsKept (f'.appendSyncRecords limits snap) := by
  unfold appendSyncRecords
  rw [h.1, h.2]
  simp only
  split <;> exact ⟨rfl, rfl⟩

theorem File.appendSyncRecords_sized (h : f.Sized) : (f.appendSyncRecords limits snap).Sized := by
  unfold appendSyncRecords
  simp only
  split <;> exact h

/-- A snapshot, from when it is taken to when it is committed: the rows are still those it
was taken beside. -/
def Pending (limits : Limits) (cs : Nat) (f : File) (snap : Snapshot) (content : List UInt8) : Prop :=
  ∃ f₀ : File, f.row = f₀.row ∧ f.chunkRows = f₀.chunkRows ∧ snap = f₀.snapshot ∧ f₀.stagedChunks.entries.length ≠ 0 ∧
    Represents limits cs f₀ content

theorem Pending.of_rows (h : Pending limits cs f snap content) (hrows : f.RowsKept f') :
    Pending limits cs f' snap content := by
  obtain ⟨f₀, hrow₀, hrows₀, hrest⟩ := h
  exact ⟨f₀, hrows.1.trans hrow₀, hrows.2.trans hrows₀, hrest⟩

/-- The commit puts the file to the rows as it was when the snapshot was taken. -/
theorem Pending.commit (h : Pending limits cs f snap content) :
    (f.appendSyncRecords limits snap).Reads limits content := by
  obtain ⟨f₀, hrow, hrows, rfl, hstaged, hrep⟩ := h
  have hsynced := hrep.reads_fsync
  rw [fsync, if_neg hstaged] at hsynced
  have hre := restaged_finishSync (f := f₀.sealActivePack.appendSyncRecords limits f₀.snapshot)
    (appendSyncRecords_sized hrep.wellFormed.staged.sized) f₀.snapshot
  obtain ⟨hrow', hrows'⟩ : (f₀.sealActivePack.appendSyncRecords limits f₀.snapshot).RowsKept
      (f.appendSyncRecords limits f₀.snapshot) :=
    appendSyncRecords_rows ⟨hrow, hrows⟩
  refine hsynced.of_rows ⟨hrow'.trans ?_, hrows'.trans ?_⟩ <;> rw [hre.frame]

end Rows

/-! The invariant. -/

def OpenStage.Past : OpenStage → Prop
  | .passed | .opened _ => True
  | _ => False

/-- The rows hold the first `count` writes, those past the barrier wait for no more, and a
sync that is running holds at least as many. -/
structure Covers (limits : Limits) (cs : Nat) (content : List UInt8) (x : OpenState) (count : Nat) : Prop where
  le : count ≤ x.files.merged.length
  reads : x.files.file.Reads limits (x.files.after content count)
  past : ∀ call ∈ x.opens, call.stage.Past → call.before ≤ count
  sync : ∀ sync, x.files.syncs = [sync] → ∃ taken, count ≤ taken ∧ taken ≤ x.files.merged.length ∧
    (∀ c, x.owners = [some c] → ∃ call, x.opens[c]? = some call ∧ call.before ≤ taken) ∧
    if sync.committed then count = taken
    else Pending limits cs x.files.file sync.snapshot (x.files.after content taken)

structure OpenInv (limits : Limits) (cs : Nat) (content : List UInt8) (x : OpenState) : Prop where
  writes : WritesOk limits cs content x.files
  flag : x.syncInProgress = true ↔ x.files.syncs ≠ [] ∨ x.others ≠ 0
  others : x.others ≤ 1 ∧ (x.files.syncs ≠ [] → x.others = 0)
  inFlight : x.inFlight = true ↔ x.files.syncs ≠ []
  owners : x.owners.length = x.files.syncs.length
  before : ∀ call ∈ x.opens, call.before ≤ x.files.merged.length
  covers : ∃ count, Covers limits cs content x count
  sizes : ∀ call ∈ x.opens, ∀ size, call.stage = .opened size →
    ∃ count, call.before ≤ count ∧ count ≤ x.files.merged.length ∧ size = (x.files.after content count).length

section Opens

variable {x : OpenState} {call : Nat} {stage : OpenStage}

theorem mem_setStage {c : OpenCall} (h : c ∈ x.setStage call stage) :
    c ∈ x.opens ∨ ∃ c₀, x.opens[call]? = some c₀ ∧ c = { c₀ with stage } := by
  obtain ⟨i, hi⟩ := mem_iff_getElem?.mp h
  rw [OpenState.setStage, getElem?_modify] at hi
  by_cases heq : call = i
  · subst heq
    simp only [if_pos] at hi
    obtain ⟨c₀, hget, rfl⟩ := map_eq_some_iff.mp hi
    exact .inr ⟨c₀, hget, rfl⟩
  · simp only [if_neg heq, id_map'] at hi
    exact .inl (mem_of_getElem? hi)

theorem before_setStage {c : Nat} {d : OpenCall} (h : x.opens[c]? = some d) :
    ∃ d', (x.setStage call stage)[c]? = some d' ∧ d'.before = d.before := by
  refine ⟨if call = c then { d with stage } else d, ?_, ?_⟩
  · rw [OpenState.setStage, getElem?_modify, h]
    rfl
  · split <;> rfl

end Opens

theorem WriteState.after_of_prefix {content : List UInt8} {s s' : WriteState} (h : s.merged <+: s'.merged) {count : Nat}
    (hle : count ≤ s.merged.length) : s'.after content count = s.after content count := by
  obtain ⟨more, hmore⟩ := h
  unfold after
  rw [← hmore, take_append_of_le_length hle]

section Invariant

variable {limits : Limits} {cs : Nat} {content : List UInt8} {x : OpenState} (h : OpenInv limits cs content x)
include h

theorem OpenInv.idle (hclear : ¬ x.syncInProgress = true) : x.files.syncs = [] ∧ x.others = 0 := by
  rwa [h.flag, not_or, not_not, not_not] at hclear

/-- Nothing but the flag, and who else holds it, changes. -/
theorem OpenInv.flagged {flag : Bool} {others skips : Nat} (hflag : flag = true ↔ x.files.syncs ≠ [] ∨ others ≠ 0)
    (hothers : others ≤ 1 ∧ (x.files.syncs ≠ [] → others = 0)) :
    OpenInv limits cs content { x with syncInProgress := flag, others, skips } := by
  refine ⟨h.writes, hflag, hothers, h.inFlight, h.owners, h.before, ?_, h.sizes⟩
  exact h.covers.imp fun _ hc => { hc with }

/-- Calls come or go on; if one is past the barrier then, the rows hold what it waited for. -/
theorem OpenInv.with_opens {count : Nat} (hc : Covers limits cs content x count) {opens : List OpenCall}
    (hopens : ∀ c ∈ opens, c ∈ x.opens ∨ c.before ≤ x.files.merged.length ∧ (c.stage.Past → c.before ≤ count) ∧
      ∀ size, c.stage = .opened size → size = (x.files.after content count).length)
    (hsame : ∀ {i : Nat} {d : OpenCall}, x.opens[i]? = some d → ∃ d', opens[i]? = some d' ∧ d'.before = d.before) :
    OpenInv limits cs content { x with opens } := by
  refine ⟨h.writes, h.flag, h.others, h.inFlight, h.owners, fun c hmem => ?_,
    ⟨count, hc.le, hc.reads, fun c hmem hpast => ?_, fun sync hsync => ?_⟩, fun c hmem size hsize => ?_⟩
  · exact (hopens c hmem).elim (h.before c) fun hnew => hnew.1
  · exact (hopens c hmem).elim (fun hold => hc.past c hold hpast) fun hnew => hnew.2.1 hpast
  · obtain ⟨taken, hle, hle', howner, hrest⟩ := hc.sync sync hsync
    refine ⟨taken, hle, hle', fun c hown => ?_, hrest⟩
    obtain ⟨d, hget, hbefore⟩ := howner c hown
    obtain ⟨d', hget', heq⟩ := hsame hget
    exact ⟨d', hget', heq ▸ hbefore⟩
  · obtain hold | ⟨-, hpast, hnew⟩ := hopens c hmem
    · exact h.sizes c hold size hsize
    · exact ⟨count, hpast (by rw [hsize]; trivial), hc.le, hnew size hsize⟩

/-- A call goes on; if it is past the barrier then, the rows hold what it waited for. -/
theorem OpenInv.setStage {count : Nat} (hc : Covers limits cs content x count) {call : Nat} {stage : OpenStage}
    (hcall : ∀ c, x.opens[call]? = some c → stage.Past → c.before ≤ count ∧
      ∀ size, stage = .opened size → size = (x.files.after content count).length) :
    OpenInv limits cs content { x with opens := x.setStage call stage } := by
  refine h.with_opens hc (fun c hmem => ?_) before_setStage
  obtain hold | ⟨c₀, hget, rfl⟩ := mem_setStage hmem
  · exact .inl hold
  have hopened : ∀ {size}, stage = .opened size → stage.Past := by
    rintro size rfl
    trivial
  exact .inr ⟨h.before c₀ (mem_of_getElem? hget), fun hpast => (hcall c₀ hget hpast).1,
    fun size hsize => (hcall c₀ hget (hopened hsize)).2 size hsize⟩

/-- The sections of a write leave the rows and the syncs alone. -/
theorem OpenInv.quiet {files : WriteState} (hwrites : WritesOk limits cs content files)
    (hsyncs : files.syncs = x.files.syncs) (hrows : x.files.file.RowsKept files.file)
    (hmerged : x.files.merged <+: files.merged) : OpenInv limits cs content { x with files } := by
  have hlen : x.files.merged.length ≤ files.merged.length := hmerged.length_le
  obtain ⟨count, hc⟩ := h.covers
  refine ⟨hwrites, ?_, ?_, ?_, ?_, fun c hmem => (h.before c hmem).trans hlen, ⟨count, ?_⟩, ?_⟩
  · rw [hsyncs]
    exact h.flag
  · rw [hsyncs]
    exact h.others
  · rw [hsyncs]
    exact h.inFlight
  · rw [hsyncs]
    exact h.owners
  · refine ⟨hc.le.trans hlen, ?_, hc.past, fun sync hsync => ?_⟩
    · rw [ after_of_prefix hmerged hc.le]
      exact hc.reads.of_rows hrows
    · obtain ⟨taken, hle, hle', howner, hrest⟩ := hc.sync sync (hsyncs ▸ hsync)
      refine ⟨taken, hle, hle'.trans hlen, howner, ?_⟩
      split at hrest
      case isTrue hcommitted => rwa [if_pos hcommitted]
      case isFalse hcommitted =>
        rw [if_neg hcommitted, after_of_prefix hmerged hle']
        exact hrest.of_rows hrows
  · intro c hmem size hsize
    obtain ⟨k, hbefore, hk, hsize'⟩ := h.sizes c hmem size hsize
    exact ⟨k, hbefore, hk.trans hlen, by rw [ after_of_prefix hmerged hk]; exact hsize'⟩

/-- While no sync is in progress, one can start; it holds all writes merged so far. -/
theorem OpenInv.beginSync (hclear : ¬ x.syncInProgress = true) {owner : Option Nat}
    (howner : ∀ c, owner = some c → ∃ call, x.opens[c]? = some call) {x' : OpenState}
    (hs : x.beginSync limits owner = some x') : OpenInv limits cs content x' ∧ x'.opens = x.opens := by
  obtain ⟨files, hstep, rfl⟩ := map_eq_some_iff.mp hs
  have hidle := h.idle hclear
  have hwrites := h.writes.step (e := .snapshot) hidle.1 hstep
  obtain ⟨hstaged, ⟨⟩⟩ := ite_none_left_eq_some.mp hstep
  obtain ⟨count, hc⟩ := h.covers
  have hne : x.files.syncs ++ [⟨x.files.file.snapshot, false⟩] ≠ [] := by simp
  refine ⟨⟨hwrites, iff_of_true rfl (.inl hne), ⟨h.others.1, fun _ => hidle.2⟩, iff_of_true rfl hne, ?_, h.before,
    ⟨count, hc.le, hc.reads.of_rows ⟨rfl, rfl⟩, hc.past, fun sync hsync => ?_⟩, h.sizes⟩, rfl⟩
  · simp only [length_append, h.owners]
    rfl
  · rw [hidle.1] at hsync
    cases hsync
    have howners : x.owners = [] := length_eq_zero_iff.mp (by rw [h.owners, hidle.1]; rfl)
    refine ⟨x.files.merged.length, hc.le, le_rfl, fun c hown => ?_, ?_⟩
    · rw [howners] at hown
      obtain ⟨d, hd⟩ := howner c (singleton_inj.mp hown)
      exact ⟨d, hd, h.before d (mem_of_getElem? hd)⟩
    refine ⟨x.files.file, rfl, rfl, rfl, hstaged, ?_⟩
    show Represents limits cs x.files.file ((x.files.merged.take x.files.merged.length).foldl _ content)
    rw [take_length]
    exact h.writes.represents

/-- The commit brings the rows to where the snapshot was taken. -/
theorem OpenInv.commit {sync : Nat} {files : WriteState}
    (hok : x.files.Separate limits (.commit sync)) (hs : x.files.step limits (.commit sync) = some files) :
    OpenInv limits cs content { x with files } := by
  have hwrites := h.writes.step hok hs
  simp only [step] at hs
  split at hs
  case h_2 => cases hs
  case h_1 snap hsync =>
    cases hs
    obtain ⟨hsyncs, rfl⟩ := h.writes.syncs.eq_singleton hsync
    obtain ⟨count, hc⟩ := h.covers
    obtain ⟨taken, hle, hle', howner, hrest⟩ := hc.sync _ hsyncs
    have hset : x.files.syncs.set 0 ⟨snap, true⟩ = [⟨snap, true⟩] := by rw [hsyncs]; rfl
    have hflag : x.files.syncs.set 0 ⟨snap, true⟩ ≠ [] ↔ x.files.syncs ≠ [] := by rw [hset, hsyncs]; simp
    refine ⟨hwrites, ?_, ⟨h.others.1, fun hne => h.others.2 (hflag.mp hne)⟩, h.inFlight.trans hflag.symm, ?_, h.before,
      ⟨taken, hle', hrest.commit, fun c hmem hpast => (hc.past c hmem hpast).trans hle, fun sync' hsync' => ?_⟩, h.sizes⟩
    · exact h.flag.trans (or_congr hflag.symm Iff.rfl)
    · show x.owners.length = (x.files.syncs.set 0 ⟨snap, true⟩).length
      rw [length_set]
      exact h.owners
    · obtain rfl : (⟨snap, true⟩ : SyncCall) = sync' := singleton_inj.mp (hset.symm.trans hsync')
      refine ⟨taken, le_rfl, hle', howner, ?_⟩
      rw [if_pos rfl]

/-- A sync ends, with or without an error; the rows stay as they are. If the call that ran it
is past the barrier then, the sync was committed. -/
theorem OpenInv.finished {sync : Nat} {run : SyncCall} {files : WriteState}
    {stage : OpenStage} (hsync : x.files.syncs[sync]? = some run) (hwrites : WritesOk limits cs content files)
    (hsyncs : files.syncs = x.files.syncs.eraseIdx sync) (hmerged : files.merged = x.files.merged)
    (hrows : x.files.file.RowsKept files.file)
    (hstage : stage = .passed ∧ run.committed = true ∨ stage = .failed) :
    OpenInv limits cs content (x.finished sync stage files) := by
  obtain ⟨hrun, rfl⟩ := h.writes.syncs.eq_singleton hsync
  obtain ⟨count, hc⟩ := h.covers
  obtain ⟨taken, hle, hle', howner, hrest⟩ := hc.sync _ hrun
  have hnone : files.syncs = [] := by rw [hsyncs, hrun]; rfl
  have hothers : x.others = 0 := h.others.2 (by rw [hrun]; simp)
  have hafter (k) : files.after content k = x.files.after content k := by
    unfold WriteState.after
    rw [hmerged]
  obtain ⟨owner, howners⟩ := length_eq_one_iff.mp (h.owners.trans (by rw [hrun]; rfl))
  -- the state without the call that goes on
  have hcovers : Covers limits cs content
      { x with files, syncInProgress := false, inFlight := false, owners := x.owners.eraseIdx 0 } count := by
    refine ⟨hmerged ▸ hc.le, (hafter count).symm ▸ hc.reads.of_rows hrows, hc.past, fun sync' hsync' => ?_⟩
    exact absurd (hnone.symm.trans hsync') (by simp)
  have hended : OpenInv limits cs content
      { x with files, syncInProgress := false, inFlight := false, owners := x.owners.eraseIdx 0 } := by
    refine ⟨hwrites, iff_of_false (by simp) ?_, ⟨h.others.1, fun _ => hothers⟩, iff_of_false (by simp) ?_, ?_, ?_,
      ⟨count, hcovers⟩, ?_⟩
    · simp [hnone, hothers]
    · simp [hnone]
    · simp [howners, hnone]
    · rw [hmerged]
      exact h.before
    · intro c hmem size hsize
      obtain ⟨k, hbefore, hk, hsize'⟩ := h.sizes c hmem size hsize
      exact ⟨k, hbefore, hmerged ▸ hk, (hafter k).symm ▸ hsize'⟩
  unfold OpenState.finished OpenState.ended
  rw [howners]
  cases owner with
  | none =>
    rwa [howners] at hended
  | some call =>
    rw [howners] at hended hcovers
    refine hended.setStage hcovers fun c hget hpast => ?_
    obtain ⟨rfl, hcommitted⟩ | rfl := hstage
    · rw [if_pos hcommitted] at hrest
      obtain ⟨d, hd, hbefore⟩ := howner call howners
      cases hd.symm.trans hget
      exact ⟨hrest ▸ hbefore, nofun⟩
    · exact absurd hpast id

end Invariant

/-! One step. -/

section Step

variable {limits : Limits} {cs : Nat} {content : List UInt8} {x x' : OpenState}

/-- A section of a write. -/
def WriteEvent.Writes : WriteEvent → Prop
  | .load _ | .plan _ | .readBaseChunk _ | .stage _ => True
  | _ => False

theorem WriteState.step_quiet {s s' : WriteState} {e : WriteEvent} (hs : s.step limits e = some s') (he : e.Writes) :
    s'.syncs = s.syncs ∧ s.file.RowsKept s'.file ∧ s.merged <+: s'.merged := by
  cases e with simp only [step] at hs
  | load w =>
    cases hs
    exact ⟨rfl, ⟨rfl, rfl⟩, prefix_rfl⟩
  | plan call | readBaseChunk call =>
    split at hs <;> cases hs
    exact ⟨rfl, ⟨rfl, rfl⟩, prefix_rfl⟩
  | stage call =>
    split at hs <;> cases hs
    rename_i w node baseChunks hcall
    obtain ⟨hrow, hrows, -⟩ := stageWrite_frame limits s.file node baseChunks w
    exact ⟨rfl, ⟨hrow, hrows⟩, prefix_append _ _⟩
  | snapshot | commit _ | finish _ | fail _ => exact absurd he id

variable (h : OpenInv limits cs content x)
include h

theorem OpenInv.section {e : WriteEvent} (he : e.Writes)
    (hok : x.files.Separate limits e) (hs : (x.files.step limits e).map (fun files => { x with files }) = some x') :
    OpenInv limits cs content x' := by
  obtain ⟨files, hstep, rfl⟩ := map_eq_some_iff.mp hs
  obtain ⟨hsyncs, hrows, hmerged⟩ := step_quiet hstep he
  exact h.quiet (h.writes.step hok hstep) hsyncs hrows hmerged

theorem OpenInv.step_files {e : WriteEvent} (hok : x.Apart limits (.files e))
    (hs : x.step limits (.files e) = some x') : OpenInv limits cs content x' := by
  cases e with
  | load w => exact h.section (e := .load w) trivial hok hs
  | plan call => exact h.section (e := .plan call) trivial hok hs
  | readBaseChunk call => exact h.section (e := .readBaseChunk call) trivial hok hs
  | stage call => exact h.section (e := .stage call) trivial hok hs
  | snapshot =>
    obtain ⟨hclear, hs⟩ := ite_none_left_eq_some.mp hs
    exact (h.beginSync hclear (fun _ hc => absurd hc (by simp)) hs).1
  | commit sync =>
    obtain ⟨files, hstep, rfl⟩ := map_eq_some_iff.mp hs
    exact h.commit hok hstep
  | finish sync =>
    obtain ⟨files, hstep, rfl⟩ := map_eq_some_iff.mp hs
    have hwrites := h.writes.step (e := .finish sync) hok hstep
    simp only [step] at hstep
    split at hstep
    case h_2 => cases hstep
    case h_1 snap hsync =>
      cases hstep
      have hrows := rowsKept_finishSync h.writes.represents.wellFormed.staged.sized snap
      exact h.finished hsync hwrites rfl rfl hrows (.inl ⟨rfl, rfl⟩)
  | fail sync =>
    obtain ⟨files, hstep, rfl⟩ := map_eq_some_iff.mp hs
    have hwrites := h.writes.step (e := .fail sync) hok hstep
    simp only [step] at hstep
    split at hstep
    case h_2 => cases hstep
    case h_1 run hsync =>
      cases hstep
      exact h.finished hsync hwrites rfl rfl ⟨rfl, rfl⟩ (.inr rfl)

theorem OpenInv.step_barrier {call : Nat} {sealOk : Bool}
    (hs : x.step limits (.barrier call sealOk) = some x') : OpenInv limits cs content x' := by
  obtain ⟨count, hc⟩ := h.covers
  simp only [OpenState.step] at hs
  split at hs
  case h_2 => cases hs
  case h_1 before hget =>
    split at hs
    case isTrue hclean =>
      cases hs
      have hidle : x.files.syncs = [] := by
        by_contra hne
        exact absurd (h.inFlight.mpr hne) (by simp [hclean.2])
      -- nothing is staged, so the rows hold every write
      have hall : Covers limits cs content x x.files.merged.length := by
        refine ⟨le_rfl, ?_, fun c hmem _ => h.before c hmem, fun sync hsync => ?_⟩
        · unfold WriteState.after
          rw [take_length]
          exact h.writes.represents.reads hclean.1
        · exact absurd (hidle.symm.trans hsync) (by simp)
      refine h.setStage hall fun c hget' _ => ⟨h.before c (mem_of_getElem? hget'), nofun⟩
    case isFalse =>
      obtain ⟨hfree, hs⟩ := ite_none_left_eq_some.mp hs
      split at hs
      case isTrue =>
        obtain ⟨y, hbegin, rfl⟩ := map_eq_some_iff.mp hs
        obtain ⟨hy, hopens⟩ := h.beginSync (fun hset => hfree (.inr hset)) (fun c hc => some.inj hc ▸ ⟨_, hget⟩) hbegin
        obtain ⟨count', hc'⟩ := hy.covers
        exact hy.setStage hc' fun c _ hpast => absurd hpast id
      case isFalse =>
        cases hs
        have hset : OpenInv limits cs content { x with opens := x.setStage call .failed } :=
          h.setStage hc fun c _ hpast => absurd hpast id
        exact hset.flagged hset.flag hset.others

theorem OpenInv.step {e : OpenEvent} (hok : x.Apart limits e)
    (hs : x.step limits e = some x') : OpenInv limits cs content x' := by
  obtain ⟨count, hc⟩ := h.covers
  cases e with simp only [OpenState.step] at hs
  | files e => exact h.step_files hok hs
  | barrier call sealOk => exact h.step_barrier hs
  | syncOthers =>
    obtain ⟨hclear, ⟨⟩⟩ := ite_none_left_eq_some.mp hs
    obtain ⟨hsyncs, hothers⟩ := h.idle hclear
    refine h.flagged (iff_of_true rfl (.inr (by omega))) ⟨by omega, fun hne => absurd hsyncs hne⟩
  | finishOthers =>
    obtain ⟨hne, ⟨⟩⟩ := ite_none_left_eq_some.mp hs
    have hsyncs : x.files.syncs = [] := by
      by_contra hsync
      exact hne (h.others.2 hsync)
    have hone := h.others.1
    refine h.flagged (iff_of_false (by simp) ?_) ⟨by omega, fun hsync => absurd hsyncs hsync⟩
    rw [not_or, not_not, not_not]
    exact ⟨hsyncs, by omega⟩
  | skip =>
    obtain ⟨-, ⟨⟩⟩ := ite_none_left_eq_some.mp hs
    exact h.flagged h.flag h.others
  | finishSkip =>
    obtain ⟨-, ⟨⟩⟩ := ite_none_left_eq_some.mp hs
    refine h.flagged (iff_of_false (by simp) ?_) h.others
    rwa [not_or, not_not, not_not]
  | openFile =>
    cases hs
    refine h.with_opens hc (fun c hmem => ?_) fun hget => ⟨_, ?_, rfl⟩
    · obtain hold | hnew := mem_append.mp hmem
      · exact .inl hold
      · rw [mem_singleton.mp hnew]
        exact .inr ⟨le_rfl, fun hpast => absurd hpast id, nofun⟩
    · rwa [List.getElem?_append_left (List.getElem?_eq_some_iff.mp hget).1]
  | attributes call =>
    split at hs
    case h_2 => cases hs
    case h_1 before hget =>
      cases hs
      refine h.setStage hc fun c hget' _ => ?_
      cases hget.symm.trans hget'
      refine ⟨hc.past _ (mem_of_getElem? hget) trivial, fun size hsize => ?_⟩
      cases hsize
      exact hc.reads.1
  | giveUp call =>
    split at hs
    case h_3 => cases hs
    all_goals
      cases hs
      exact h.setStage hc fun c _ hpast => absurd hpast id

end Step

/-! Runs. -/

theorem OpenInv.init {limits : Limits} {cs : Nat} {f : File} {content : List UInt8} (h : Represents limits cs f content)
    (hnone : f.stagedChunks.entries.length = 0) : OpenInv limits cs content { files := { file := f } } where
  writes := ⟨h, nofun, .none⟩
  flag := by simp
  others := ⟨Nat.zero_le 1, fun _ => rfl⟩
  inFlight := by simp
  owners := rfl
  before _ hc := absurd hc not_mem_nil
  covers := ⟨0, le_rfl, h.reads hnone, nofun, nofun⟩
  sizes _ hc := absurd hc not_mem_nil

theorem OpenInv.sees {limits : Limits} {cs : Nat} {content : List UInt8} {x : OpenState} (h : OpenInv limits cs content x) :
    x.Sees limits content := by
  obtain ⟨count, hc⟩ := h.covers
  intro call hmem
  cases hstage : call.stage with
  | passed => exact ⟨count, hc.past call hmem (by rw [hstage]; trivial), hc.le, hc.reads⟩
  | opened size =>
    exact ⟨⟨count, hc.past call hmem (by rw [hstage]; trivial), hc.le, hc.reads⟩, h.sizes call hmem size hstage⟩
  | barrier | syncing | failed => trivial

/-- **Close to open.** From every file in order with nothing staged, along every run whose
steps meet `Apart`: who is past the barrier sees all writes that returned before the call. -/
theorem open_sees_writes {limits : Limits} {cs : Nat} {f : File} {content : List UInt8}
    (h : Represents limits cs f content) (hnone : f.stagedChunks.entries.length = 0) {events : List OpenEvent}
    (hrun : Allowed (OpenState.step limits) (OpenState.Apart limits) { files := { file := f } } events) :
    Throughout (OpenState.step limits) (OpenState.Sees limits content) { files := { file := f } } events :=
  Allowed.throughout (fun _ hi => hi.sees) (fun _ _ _ hi hok hs => hi.step hok hs) (OpenInv.init h hnone) hrun

/-- A write and a close are in flight; the file is opened, its barrier waits for the sync of
the close, finds what was written meanwhile, and syncs that. -/
def barrierRun : List OpenEvent :=
  [.files (.load ⟨0, [1, 1, 1, 1]⟩), .files (.plan 0), .files (.stage 0), .files .snapshot, .files (.load ⟨1, [2, 2]⟩),
    .files (.plan 0), .files (.stage 0), .openFile, .files (.commit 0), .files (.finish 0), .barrier 0 true,
    .files (.commit 0), .files (.finish 0), .attributes 0]

theorem open_sees_writes_barrier :
    (exec (OpenState.step ⟨4, 2⟩) { files := emptyState } barrierRun).map
      (fun x => (x.opens, x.files.file.readFile ⟨4, 2⟩ 0 8)) = some ([⟨2, .opened 4⟩], [1, 2, 2, 1]) ∧
      Throughout (OpenState.step ⟨4, 2⟩) (OpenState.Sees ⟨4, 2⟩ []) { files := emptyState } barrierRun :=
  ⟨by decide, open_sees_writes (represents_emptyFile ⟨4, 2⟩ (by decide)) (by decide) (by decide)⟩

/-- A goroutine that found nothing to sync clears the flag of a sync that is running; the
chunk is written again and a second sync commits it; the file is opened, and the first sync
commits. -/
def overtakenOpen : List OpenEvent :=
  [.skip, .files (.load ⟨0, [1, 1, 1, 1]⟩), .files (.plan 0), .files (.stage 0), .files .snapshot, .finishSkip,
    .files (.load ⟨0, [2, 2, 2, 2]⟩), .files (.plan 0), .files (.stage 0), .files .snapshot, .files (.commit 1),
    .files (.finish 1), .openFile, .barrier 0 true, .attributes 0, .files (.commit 0)]

/-- A write merges what it has read before another write was committed, and the file is
opened. -/
def staleOpen : List OpenEvent :=
  staleBase.map .files ++ [.openFile, .barrier 0 true, .files (.commit 0), .files (.finish 0), .attributes 0]

/-- The calls, what a read returns, what it should return once all writes are committed,
and how many there were. -/
def openedAfter (events : List OpenEvent) : Option (List OpenCall × List UInt8 × List UInt8 × Nat) :=
  (exec (OpenState.step ⟨4, 2⟩) { files := emptyState } events).map fun x =>
    (x.opens, x.files.file.readFile ⟨4, 2⟩ 0 8, slice (x.files.after [] x.files.merged.length) 0 8, x.files.merged.length)

/-- If all writes returned before the file was opened, a read returns them. -/
theorem read_of_sees {events : List OpenEvent} {n size : Nat} {read expected : List UInt8}
    (h : Throughout (OpenState.step ⟨4, 2⟩) (OpenState.Sees ⟨4, 2⟩ []) { files := emptyState } events)
    (hopened : openedAfter events = some ([⟨n, .opened size⟩], read, expected, n)) : read = expected := by
  obtain ⟨x, hexec, hx⟩ := map_eq_some_iff.mp hopened
  simp only [Prod.mk.injEq] at hx
  obtain ⟨hopens, rfl, rfl, rfl⟩ := hx
  have hsees := h.last hexec
  obtain ⟨⟨count, hbefore, hle, hreads⟩, -⟩ := hsees _ (hopens ▸ mem_singleton.mpr rfl)
  obtain rfl : count = x.files.merged.length := le_antisymm hle hbefore
  exact hreads.2 0 8 (by decide)

/-- **Writes that `Open` does not see**, though they returned before it was called: the
second one of the first run, and the byte 3 of the second run. -/
theorem open_misses_writes :
    openedAfter overtakenOpen = some ([⟨2, .opened 4⟩], [1, 1, 1, 1], [2, 2, 2, 2], 2) ∧
      ¬ Throughout (OpenState.step ⟨4, 2⟩) (OpenState.Sees ⟨4, 2⟩ []) { files := emptyState } overtakenOpen ∧
      openedAfter staleOpen = some ([⟨3, .opened 4⟩], [2, 1, 1, 1], [2, 3, 1, 1], 3) ∧
      ¬ Throughout (OpenState.step ⟨4, 2⟩) (OpenState.Sees ⟨4, 2⟩ []) { files := emptyState } staleOpen := by
  have hovertaken : openedAfter overtakenOpen = some ([⟨2, .opened 4⟩], [1, 1, 1, 1], [2, 2, 2, 2], 2) := by
    decide +kernel
  have hstale : openedAfter staleOpen = some ([⟨3, .opened 4⟩], [2, 1, 1, 1], [2, 3, 1, 1], 3) := by decide +kernel
  refine ⟨hovertaken, fun h => ?_, hstale, fun h => ?_⟩
  · exact absurd (read_of_sees h hovertaken) (by decide)
  · exact absurd (read_of_sees h hstale) (by decide)

end InClusterStorage.Controller
