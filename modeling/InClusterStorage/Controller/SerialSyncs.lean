import InClusterStorage.Lib.Exclusive
import InClusterStorage.Lib.Runs
import InClusterStorage.Controller.Staging

/- Whether at most one sync of a volume runs at a time. A sync begins only where
   `syncInProgress` is clear and sets it, so the flag would do, if `finishSync`
   were called by the sync alone. It is called as well by a goroutine that found
   nothing to sync, after it has released the mutex, and clears the flag of
   whatever sync has begun since. Another sync may then begin, and overtake the
   first one on the way to the metadata.

   `serial_iff`: along every run, one sync at a time and commits in the order of
   the writes hold exactly if no goroutine without a snapshot gets to `finishSync`
   while a sync is in progress. -/
namespace InClusterStorage.Controller

open Threads List Option Staging Runs

/-! The machine: a volume's staging area, the goroutines that use it, and the chunk
references in the order in which they were committed to the metadata. -/

structure SyncSystem where
  staging : Staging
  threads : List Pc := []
  committed : List StagedEntry := []

inductive Call where
  | fsyncWithEpoch (inodeID : Nat) (blocking : Bool) (trigger : SyncTrigger)
  | openBarrier (inodeID : Nat)
  | flushToBackend
  deriving DecidableEq, Repr

def Call.pc : Call → Pc
  | .fsyncWithEpoch inodeID blocking trigger => .fsync inodeID blocking trigger
  | .openBarrier inodeID => .openBarrier inodeID
  | .flushToBackend => .flushToBackend

/-- What the next section of the goroutine commits. -/
def Pc.commits (ok : Bool) : Pc → List StagedEntry
  | .appending sync => if ok then sync.snapshotChunks else []
  | _ => []

inductive SyncEvent where
  | write (ino : Nat) (chunks : List Staging.ChunkWrite) (ok : Bool)
  | call (c : Call)
  | fire (timer : Nat)
  | run (t : Nat) (ok : Bool)
  /-- the context of a waiting call is cancelled -/
  | giveUp (t : Nat)
  deriving DecidableEq, Repr

namespace SyncSystem

def step (x : SyncSystem) : SyncEvent → Option SyncSystem
  | .write ino chunks ok => some { x with staging := x.staging.writeFile ino chunks ok }
  | .call c => some { x with threads := x.threads ++ [c.pc] }
  | .fire timer =>
    match x.staging.timers[timer]? with
    | some ⟨kind, .armed⟩ =>
      some { x with
        staging := { x.staging with timers := x.staging.timers.set timer ⟨kind, .fired⟩ }
        threads := x.threads ++ [kind.pc] }
    | _ => none
  | .run t ok =>
    match x.threads[t]? with
    | none => none
    | some pc =>
      match x.staging.run t ok pc with
      | none => none
      | some (staging, pc') =>
        some { staging, threads := x.threads.set t pc', committed := x.committed ++ pc.commits ok }
  | .giveUp t =>
    match x.threads[t]? with
    | some .waiting | some (.openBarrier _) =>
      some { x with threads := x.threads.set t (.done (some .cancelled)) }
    | _ => none

/-- A volume that has just been made. -/
def init (requirePermanent : Bool) : SyncSystem := { staging := { requirePermanent } }

end SyncSystem

/-- The goroutine has taken its snapshot and has not reached `finishSync`. -/
def Pc.Syncing : Pc → Prop
  | .uploading _ | .appending _ | .awaiting _ | .finishing _ _ => True
  | _ => False

instance : DecidablePred Pc.Syncing
  | .uploading _ | .appending _ | .awaiting _ | .finishing _ _ => isTrue trivial
  | .fsync _ _ _ | .fsyncIdle | .waiting | .coalesce | .close | .closeIdle | .openBarrier _
  | .flushToBackend | .skipping _ _ _ | .done _ => isFalse id

/-- The goroutine is on its way to `finishSync`. -/
def Pc.Finishes : Pc → Prop
  | .skipping _ _ _ | .uploading _ | .appending _ | .awaiting _ | .finishing _ _ => True
  | _ => False

/-- The snapshot of a goroutine that has not committed it. -/
def Pc.uncommitted : Pc → List StagedEntry
  | .uploading sync | .appending sync => sync.snapshotChunks
  | _ => []

theorem Pc.uncommitted_of_not_syncing {pc : Pc} (h : ¬ pc.Syncing) : pc.uncommitted = [] := by
  cases pc <;> first | rfl | exact absurd trivial h

theorem Pc.commits_of_not_syncing {pc : Pc} (h : ¬ pc.Syncing) (ok : Bool) : pc.commits ok = [] := by
  cases pc <;> first | rfl | exact absurd trivial h

/-- Of two references for one chunk, the one staged later is committed later. -/
def CommitsInOrder (committed : List StagedEntry) : Prop :=
  committed.Pairwise fun a b => a.1 = b.1 → a.2.stamp ≤ b.2.stamp

/-- At most one sync is in progress, `syncInProgress` is set while it is, and what
has been committed follows the order of the writes. -/
structure SyncSystem.Serial (x : SyncSystem) : Prop where
  exclusive : Exclusive Pc.Syncing x.staging.syncInProgress x.threads
  inOrder : CommitsInOrder x.committed

/-- The next section is `finishSync`, for a goroutine that found nothing to sync. -/
def Pc.Clears (ok : Bool) : Pc → Prop
  | .skipping _ _ mustFlush => ¬ (mustFlush = true ∧ ok = false)
  | _ => False

theorem Pc.not_clears {pc : Pc} (h : pc.Syncing) {ok : Bool} : ¬ pc.Clears ok := by
  cases pc <;> first | exact id | exact absurd h id

/-- A goroutine that found nothing to sync calls `finishSync` only while no sync is
in progress. -/
def SyncSystem.FinishesAlone (x : SyncSystem) : SyncEvent → Prop
  | .run t ok => ∀ pc, x.threads[t]? = some pc → pc.Clears ok → ∀ pc' ∈ x.threads, ¬ pc'.Syncing
  | _ => True

/-! Staged chunks. -/

theorem mem_insert_entries {m : StagedChunks} {k : Nat × Nat} {c : StagedChunk} {a : StagedEntry}
    (h : a ∈ (m.insert k c).entries) : a = ⟨k, c⟩ ∨ a ∈ m.entries := by
  exact (mem_cons.1 h).imp_right fun h => (kerase_sublist k m.entries).subset h

theorem mem_dropCommitted {entries : List StagedEntry} {a : StagedEntry} : ∀ {m : StagedChunks},
    a ∈ (entries.foldl Staging.dropCommitted m).entries → a ∈ m.entries := by
  induction entries with
  | nil => intro m h; exact h
  | cons e rest ih =>
    intro m h
    have h := ih h
    unfold dropCommitted at h
    split at h
    · split at h
      · exact (kerase_sublist e.1 m.entries).subset h
      · exact h
    · exact h

namespace Staging

/-- What is staged for the chunk now was staged no earlier than `e`. -/
def Behind (s : Staging) (e : StagedEntry) : Prop :=
  e.2.stamp < s.stagings ∧ ∀ a ∈ s.stagedChunks.entries, a.1 = e.1 → e.2.stamp ≤ a.2.stamp

/-- From `s` to `s'` chunks are only dropped, or staged anew. -/
structure Advances (s s' : Staging) : Prop where
  behind : ∀ e, s.Behind e → s'.Behind e
  staged : (∀ a ∈ s.stagedChunks.entries, s.Behind a) → ∀ a ∈ s'.stagedChunks.entries, s'.Behind a
  flag : s'.syncInProgress = s.syncInProgress

theorem Advances.refl (s : Staging) : s.Advances s := ⟨fun _ h => h, fun h => h, rfl⟩

variable {s s' : Staging} {pc' : Pc}

theorem Advances.trans {s'' : Staging} (h : s.Advances s') (h' : s'.Advances s'') : s.Advances s'' :=
  ⟨fun e he => h'.behind e (h.behind e he), fun hs => h'.staged (h.staged hs), h'.flag.trans h.flag⟩

theorem behind_of_subset (hsub : s'.stagedChunks.entries ⊆ s.stagedChunks.entries)
    (hstamp : s'.stagings = s.stagings) {e : StagedEntry} (h : s.Behind e) : s'.Behind e :=
  ⟨hstamp ▸ h.1, fun a ha => h.2 a (hsub ha)⟩

theorem advances_stageChunk (ino : Nat) (s : Staging) (w : ChunkWrite) : s.Advances (s.stageChunk ino w) := by
  refine ⟨fun e he => ⟨Nat.lt_succ_of_lt he.1, fun a ha heq => ?_⟩, fun hs a ha => ?_, rfl⟩
  · rcases mem_insert_entries ha with rfl | ha
    · exact le_of_lt he.1
    · exact he.2 a ha heq
  · refine ⟨?_, fun b hb heq => ?_⟩
    · rcases mem_insert_entries ha with rfl | ha
      · exact Nat.lt_succ_self _
      · exact Nat.lt_succ_of_lt (hs a ha).1
    · rw [(s.stageChunk ino w).stagedChunks.nodupKeys.eq_of_fst_eq hb ha heq]

theorem advances_writeFile (ino : Nat) (chunks : List ChunkWrite) (ok : Bool) (s : Staging) :
    s.Advances (s.writeFile ino chunks ok) := by
  have hstaged : ∀ (chunks : List ChunkWrite) (s : Staging), s.Advances (chunks.foldl (stageChunk ino) s) := by
    intro chunks
    induction chunks with
    | nil => exact Advances.refl
    | cons w rest ih => exact fun s => (advances_stageChunk ino s w).trans (ih _)
  have h := hstaged chunks s
  unfold writeFile
  simp only
  split_ifs <;> exact { h with }

/-! What a section does to the syncs. -/

theorem finishSync_spec (sync : Sync) (err : Option SyncError) (s : Staging) :
    (s.finishSync sync err).syncInProgress = false ∧ (s.finishSync sync err).stagings = s.stagings ∧
      (s.finishSync sync err).stagedChunks.entries ⊆ s.stagedChunks.entries := by
  unfold finishSync
  cases err with
  | some e => simp only; split_ifs <;> exact ⟨rfl, rfl, List.Subset.refl _⟩
  | none => simp only; split_ifs <;> exact ⟨rfl, rfl, fun a ha => mem_dropCommitted ha⟩

/-- A goroutine outside a sync leaves the syncs as they are, or finds the flag clear,
sets it and takes a snapshot. -/
structure Proceeds (s s' : Staging) (pc' : Pc) : Prop where
  stagedChunks : s'.stagedChunks = s.stagedChunks
  stagings : s'.stagings = s.stagings
  flag : (¬ pc'.Syncing ∧ s'.syncInProgress = s.syncInProgress) ∨
    s.syncInProgress = false ∧ s'.syncInProgress = true ∧
      ∃ sync, pc' = .uploading sync ∧ sync.snapshotChunks.Sublist s.stagedChunks.entries

theorem Proceeds.outside (hpc : ¬ pc'.Syncing) (hc : s'.stagedChunks = s.stagedChunks) (hs : s'.stagings = s.stagings)
    (hf : s'.syncInProgress = s.syncInProgress) : s.Proceeds s' pc' :=
  ⟨hc, hs, .inl ⟨hpc, hf⟩⟩

/-- The section does not touch the timers. -/
structure SameTimers (s s' : Staging) : Prop where
  timers : s'.timers = s.timers
  coalesceTimer : s'.coalesceTimer = s.coalesceTimer
  closeTimer : s'.closeTimer = s.closeTimer

/-- A sync is started, or there is nothing to sync. -/
structure Begins (s : Staging) (result : Staging × Pc) : Prop where
  proceeds : s.syncInProgress = false → s.Proceeds result.1 result.2
  timers : SameTimers s result.1
  finishes : result.2.Finishes

theorem Begins.skipping (sync : Sync) (err : Option SyncError) (mustFlush : Bool) (s : Staging) :
    s.Begins (s, .skipping sync err mustFlush) :=
  ⟨fun _ => .outside id rfl rfl rfl, ⟨rfl, rfl, rfl⟩, trivial⟩

theorem Begins.proceeds_of_some {result : Staging × Pc} (h : s.Begins result) (hflag : s.syncInProgress = false)
    (heq : some result = some (s', pc')) : s.Proceeds s' pc' := by
  obtain rfl := some.inj heq
  exact h.proceeds hflag

theorem executeSyncLocked_begins (sealOk : Bool) (inodeFilter : Option (List Nat)) (s : Staging) :
    s.Begins (s.executeSyncLocked sealOk inodeFilter) := by
  unfold executeSyncLocked
  simp only
  split_ifs
  · exact .skipping _ _ _ s
  · exact ⟨fun _ => .outside id rfl rfl rfl, ⟨rfl, rfl, rfl⟩, trivial⟩
  · exact ⟨fun h => ⟨rfl, rfl, .inr ⟨h, rfl, _, rfl, filter_sublist⟩⟩, ⟨rfl, rfl, rfl⟩, trivial⟩

theorem syncInodesLocked_begins (sealOk : Bool) (targetInodes : List Nat) (s : Staging) :
    s.Begins (s.syncInodesLocked sealOk targetInodes) := by
  unfold syncInodesLocked
  split_ifs
  · exact executeSyncLocked_begins sealOk _ s
  · exact .skipping _ _ _ s

theorem blockingSync_begins (sealOk : Bool) (s : Staging) : s.Begins (s.blockingSync sealOk) := by
  unfold blockingSync
  split_ifs
  · exact .skipping _ _ _ s
  · exact executeSyncLocked_begins sealOk _ s

theorem closeSync_begins (sealOk : Bool) (s : Staging) :
    s.Begins (s.closeSync sealOk) ∨ s.closeInodes.getD [] = [] ∧ s.closeSync sealOk = (s, .done none) := by
  unfold closeSync
  split
  case h_1 hnil => exact .inr ⟨hnil, rfl⟩
  case h_2 =>
    have hb := syncInodesLocked_begins sealOk (s.closeInodes.getD []) { s with closeInodes := some [] }
    exact .inl ⟨fun h => ⟨(hb.proceeds h).1, (hb.proceeds h).2, (hb.proceeds h).3⟩, { hb.timers with }, hb.finishes⟩

theorem closeSync_proceeds {sealOk : Bool} (h : s.syncInProgress = false)
    (heq : some (s.closeSync sealOk) = some (s', pc')) : s.Proceeds s' pc' := by
  obtain hb | ⟨-, hdone⟩ := closeSync_begins sealOk s
  · exact hb.proceeds_of_some h heq
  · cases hdone.symm.trans (some.inj heq)
    exact .outside id rfl rfl rfl

theorem leaveClose_spec (ino : Nat) (s : Staging) :
    (s.leaveClose ino).stagedChunks = s.stagedChunks ∧ (s.leaveClose ino).stagings = s.stagings ∧
      (s.leaveClose ino).syncInProgress = s.syncInProgress := by
  unfold leaveClose
  split
  · exact ⟨rfl, rfl, rfl⟩
  · simp only; split_ifs <;> exact ⟨rfl, rfl, rfl⟩

variable {t : Nat} {ok : Bool} {pc : Pc}

theorem run_proceeds (hpc : ¬ pc.Syncing)
    (hclears : ¬ pc.Clears ok) (h : s.run t ok pc = some (s', pc')) : s.Proceeds s' pc' := by
  cases pc with
  | uploading _ | appending _ | awaiting _ | finishing _ _ => exact absurd trivial hpc
  | skipping sync err mustFlush =>
    simp only [run] at h
    split at h
    · cases h
      exact .outside id rfl rfl rfl
    · rename_i hflush
      exact absurd hflush hclears
  | done _ => simp [run] at h
  | waiting =>
    obtain ⟨err, -, heq⟩ := map_eq_some_iff.1 h
    cases heq
    exact .outside id rfl rfl rfl
  | fsync ino blocking trigger =>
    cases blocking with
    | true =>
      simp only [run] at h
      split at h
      · cases h
        exact .outside id rfl rfl rfl
      split at h
      · cases h
        exact .outside id rfl rfl rfl
      · rename_i hflag
        have hp := (blockingSync_begins ok _).proceeds_of_some (by exact Bool.eq_false_iff.2 hflag) h
        exact { hp with }
    | false =>
      cases trigger <;> simp only [run] at h <;> split at h <;> cases h
      all_goals first
        | exact .outside id rfl rfl rfl
        | (split_ifs <;> exact .outside id rfl rfl rfl)
  | fsyncIdle =>
    obtain ⟨hflag, h⟩ := ite_none_left_eq_some.mp h
    exact (blockingSync_begins ok s).proceeds_of_some (Bool.eq_false_iff.2 hflag) h
  | coalesce =>
    simp only [run] at h
    split at h
    · cases h
      exact .outside id rfl rfl rfl
    rename_i hcond
    have hflag : s.syncInProgress = false := Bool.eq_false_iff.2 fun hf => hcond (.inl hf)
    have hp := (executeSyncLocked_begins ok none _).proceeds_of_some (by exact hflag) h
    exact { hp with }
  | close =>
    simp only [run] at h
    split at h
    · cases h
      exact .outside id rfl rfl rfl
    · rename_i hflag
      have hp := closeSync_proceeds (by exact Bool.eq_false_iff.2 hflag) h
      exact { hp with }
  | closeIdle =>
    obtain ⟨hflag, h⟩ := ite_none_left_eq_some.mp h
    exact closeSync_proceeds (Bool.eq_false_iff.2 hflag) h
  | openBarrier ino =>
    simp only [run] at h
    split at h
    · cases h
      exact .outside id rfl rfl rfl
    obtain ⟨hcond, h⟩ := ite_none_left_eq_some.mp h
    obtain ⟨hc, hs, hf⟩ := leaveClose_spec ino s
    have hflag : s.syncInProgress = false := Bool.eq_false_iff.2 fun hf => hcond (.inr hf)
    have hp := (syncInodesLocked_begins ok [ino] _).proceeds_of_some (hf.trans hflag) h
    exact ⟨hp.1.trans hc, hp.2.trans hs, by rw [← hf, ← hc]; exact hp.3⟩
  | flushToBackend =>
    obtain ⟨hflag, h⟩ := ite_none_left_eq_some.mp h
    split at h
    · cases h
      exact .outside id rfl rfl rfl
    · exact (executeSyncLocked_begins ok none s).proceeds_of_some (Bool.eq_false_iff.2 hflag) h

theorem run_syncing (hpc : pc.Syncing)
    (h : s.run t ok pc = some (s', pc')) :
    (s' = s ∧ pc'.Syncing ∧
      ((pc.commits ok = [] ∧ pc'.uncommitted.Sublist pc.uncommitted) ∨
        (pc.commits ok = pc.uncommitted ∧ pc'.uncommitted = []))) ∨
    ∃ sync err, s' = s.finishSync sync err ∧ pc' = .done err ∧ pc.commits ok = [] := by
  cases pc with
  | uploading sync =>
    cases h
    refine .inl ⟨rfl, ?_⟩
    cases ok
    · exact ⟨trivial, .inl ⟨rfl, nil_sublist _⟩⟩
    · exact ⟨trivial, .inl ⟨rfl, List.Sublist.refl _⟩⟩
  | appending sync =>
    cases h
    refine .inl ⟨rfl, ?_⟩
    cases ok
    · exact ⟨trivial, .inl ⟨rfl, nil_sublist _⟩⟩
    · exact ⟨trivial, .inr ⟨rfl, rfl⟩⟩
  | awaiting sync =>
    cases h
    exact .inl ⟨rfl, trivial, .inl ⟨rfl, nil_sublist _⟩⟩
  | finishing sync err =>
    cases h
    exact .inr ⟨sync, err, rfl, rfl, rfl⟩
  | fsync _ _ _ | fsyncIdle | waiting | coalesce | close | closeIdle | openBarrier _ | flushToBackend
  | skipping _ _ _ | done _ => exact absurd hpc id

theorem run_clears (hclears : pc.Clears ok) (h : s.run t ok pc = some (s', pc')) :
    ¬ pc.Syncing ∧ ∃ sync err, s' = s.finishSync sync err ∧ pc' = .done err := by
  cases pc with
  | skipping sync err mustFlush =>
    have hflushed : ¬ (mustFlush = true ∧ ok = false) := hclears
    cases (if_neg hflushed).symm.trans h
    exact ⟨id, sync, err, rfl, rfl⟩
  | fsync _ _ _ | fsyncIdle | waiting | coalesce | close | closeIdle | openBarrier _ | flushToBackend
  | uploading _ | appending _ | awaiting _ | finishing _ _ | done _ => exact absurd hclears id

theorem run_cases (h : s.run t ok pc = some (s', pc')) :
    (∃ sync err, s' = s.finishSync sync err ∧ pc' = .done err) ∨ s' = s ∧ pc'.Syncing ∨ ¬ pc.Syncing ∧
      s.Proceeds s' pc' := by
  by_cases hpc : pc.Syncing
  · obtain ⟨rfl, hsyncing, -⟩ | ⟨sync, err, rfl, rfl, -⟩ := run_syncing hpc h
    · exact .inr (.inl ⟨rfl, hsyncing⟩)
    · exact .inl ⟨sync, err, rfl, rfl⟩
  · by_cases hclears : pc.Clears ok
    · exact .inl (run_clears hclears h).2
    · exact .inr (.inr ⟨hpc, run_proceeds hpc hclears h⟩)

end Staging

namespace SyncSystem

/-! One step. -/

/-- What is staged, committed or held in a snapshot is in the order of the writes. -/
structure Inv (x : SyncSystem) : Prop where
  staged : ∀ e ∈ x.staging.stagedChunks.entries, x.staging.Behind e
  committed : ∀ c ∈ x.committed, x.staging.Behind c
  held : ∀ pc ∈ x.threads, ∀ e ∈ pc.uncommitted, x.staging.Behind e ∧ ∀ c ∈ x.committed, c.1 = e.1 → c.2.stamp ≤ e.2.stamp
  keys : ∀ pc ∈ x.threads, pc.uncommitted.Pairwise fun a b => a.1 ≠ b.1

/-- A goroutine's snapshot is none, or part of one that was there. -/
def Holds (x : SyncSystem) (pc' : Pc) : Prop :=
  pc'.uncommitted = [] ∨ ∃ pc ∈ x.threads, pc'.uncommitted.Sublist pc.uncommitted

/-- The invariant and the property together. -/
def InvSerial (x : SyncSystem) : Prop := Inv x ∧ Serial x

theorem InvSerial.iff {x : SyncSystem} {p : Prop} (h : InvSerial x) (hp : p) : Inv x ∧ (Serial x ↔ p) :=
  ⟨h.1, iff_of_true h.2 hp⟩

variable {staging : Staging} {x : SyncSystem} {pc' pc : Pc} {t : Nat}

/-- The staging area moves on, and no goroutine gets a new snapshot. -/
theorem Inv.advance (h : Inv x) {threads : List Pc} (hbehind : ∀ e, x.staging.Behind e → staging.Behind e)
    (hstaged : ∀ e ∈ staging.stagedChunks.entries, staging.Behind e)
    (hthreads : ∀ pc' ∈ threads, x.Holds pc') : Inv { x with staging, threads } := by
  refine ⟨hstaged, fun c hc => hbehind c (h.committed c hc), fun pc' hpc' e he => ?_, fun pc' hpc' => ?_⟩
  · rcases hthreads pc' hpc' with hnil | ⟨pc, hpc, hsub⟩
    · simp [hnil] at he
    · obtain ⟨hb, hc⟩ := h.held pc hpc e (hsub.subset he)
      exact ⟨hbehind e hb, hc⟩
  · rcases hthreads pc' hpc' with hnil | ⟨pc, hpc, hsub⟩
    · rw [hnil]
      exact List.Pairwise.nil
    · exact (h.keys pc hpc).sublist hsub

theorem Inv.same (h : Inv x) {threads : List Pc} (hsub : staging.stagedChunks.entries ⊆ x.staging.stagedChunks.entries)
    (hstamp : staging.stagings = x.staging.stagings)
    (hthreads : ∀ pc' ∈ threads, x.Holds pc') : Inv { x with staging, threads } :=
  h.advance (fun _ he => behind_of_subset hsub hstamp he)
    (fun e he => behind_of_subset hsub hstamp (h.staged e (hsub he))) hthreads

theorem threads_set (hpc' : x.Holds pc') : ∀ pc ∈ x.threads.set t pc', x.Holds pc := by
  intro pc hpc
  rcases mem_or_eq_of_mem_set hpc with hpc | rfl
  · exact .inr ⟨pc, hpc, List.Sublist.refl _⟩
  · exact hpc'

theorem threads_spawn (hpc' : pc'.uncommitted = []) : ∀ pc ∈ x.threads ++ [pc'], x.Holds pc := by
  intro pc hpc
  rcases mem_append.1 hpc with hpc | hpc
  · exact .inr ⟨pc, hpc, List.Sublist.refl _⟩
  · exact .inl (mem_singleton.1 hpc ▸ hpc')

section

variable (hi : Inv x) (hs : Serial x)
include hi hs

theorem spawn_serial (hpc : ¬ pc.Syncing) (timers : List Timer) :
    InvSerial { x with staging := { x.staging with timers }, threads := x.threads ++ [pc] } :=
  ⟨hi.same (List.Subset.refl _) rfl (threads_spawn (Pc.uncommitted_of_not_syncing hpc)), hs.exclusive.spawn hpc, hs.inOrder⟩

theorem begin_sync {sync : Sync} (ht : x.threads[t]? = some pc) (hp : x.staging.syncInProgress = false)
    (hflag : staging.syncInProgress = true) (hc : staging.stagedChunks = x.staging.stagedChunks)
    (hstamp : staging.stagings = x.staging.stagings)
    (hsub : sync.snapshotChunks.Sublist x.staging.stagedChunks.entries) :
    InvSerial { x with staging, threads := x.threads.set t (.uploading sync) } := by
  have hbehind : ∀ e, x.staging.Behind e → staging.Behind e := fun e he =>
    behind_of_subset (by rw [hc]; exact List.Subset.refl _) hstamp he
  refine ⟨⟨fun e he => hbehind e (hi.staged e (hc ▸ he)), fun c hc => hbehind c (hi.committed c hc),
    fun pc' hpc' e he => ?_, fun pc' hpc' => ?_⟩, hs.exclusive.set ht (.inr hp) fun _ => hflag, hs.inOrder⟩
  · rcases mem_or_eq_of_mem_set hpc' with hpc' | rfl
    · exact ⟨hbehind e (hi.held pc' hpc' e he).1, (hi.held pc' hpc' e he).2⟩
    · have he := hsub.subset he
      exact ⟨hbehind e (hi.staged e he), fun c hc heq => (hi.committed c hc).2 e he heq.symm⟩
  · rcases mem_or_eq_of_mem_set hpc' with hpc' | rfl
    · exact hi.keys pc' hpc'
    · have hnodup := nodup_iff_pairwise_ne.1 x.staging.stagedChunks.nodupKeys
      exact (pairwise_map.1 hnodup).sublist hsub

/-- The sync commits its snapshot: it is the only one, and comes after all that was committed. -/
theorem commit_sync (ht : x.threads[t]? = some pc) (hpc : pc.Syncing) (hnil : pc'.uncommitted = []) :
    InvSerial { x with threads := x.threads.set t pc', committed := x.committed ++ pc.uncommitted } := by
  have hmem : pc ∈ x.threads := mem_of_getElem? ht
  -- nobody else holds a snapshot
  have hnone (pc'') (hmem'' : pc'' ∈ x.threads.set t pc') : pc''.uncommitted = [] := by
    obtain ⟨i, hi'⟩ := mem_iff_getElem?.1 hmem''
    by_cases hit : t = i
    · subst hit
      rw [List.getElem?_set_self (List.getElem?_eq_some_iff.1 ht).1] at hi'
      exact some.inj hi' ▸ hnil
    · rw [getElem?_set_ne hit] at hi'
      exact Pc.uncommitted_of_not_syncing (hs.exclusive.others ht (.inl hpc) hi' (Ne.symm hit))
  refine ⟨⟨hi.staged, fun c hc => ?_, fun pc'' hpc'' e he => ?_, fun pc'' hpc'' => ?_⟩,
    hs.exclusive.set ht (.inl hpc) fun _ => hs.exclusive.flag t pc ht hpc, ?_⟩
  · rcases mem_append.1 hc with hc | hc
    · exact hi.committed c hc
    · exact (hi.held pc hmem c hc).1
  · simp [hnone pc'' hpc''] at he
  · rw [hnone pc'' hpc'']
    exact List.Pairwise.nil
  · refine pairwise_append.2 ⟨hs.inOrder, (hi.keys pc hmem).imp fun hne heq => absurd heq hne, ?_⟩
    exact fun c hc e he heq => (hi.held pc hmem e he).2 c hc heq

theorem run_sync {ok : Bool} (ht : x.threads[t]? = some pc) (hpc : pc.Syncing)
    (hr : x.staging.run t ok pc = some (staging, pc')) :
    InvSerial { staging, threads := x.threads.set t pc', committed := x.committed ++ pc.commits ok } := by
  have hmem : pc ∈ x.threads := mem_of_getElem? ht
  rcases run_syncing hpc hr with ⟨rfl, -, ⟨hnone, hsub⟩ | ⟨hall, hnil⟩⟩ | ⟨sync, err, rfl, rfl, hnone⟩
  · rw [hnone, append_nil]
    exact ⟨hi.same (List.Subset.refl _) rfl (threads_set (.inr ⟨pc, hmem, hsub⟩)),
      hs.exclusive.set ht (.inl hpc) fun _ => hs.exclusive.flag t pc ht hpc, hs.inOrder⟩
  · rw [hall]
    exact commit_sync hi hs ht hpc hnil
  · rw [hnone, append_nil]
    obtain ⟨-, hstamp, hsub⟩ := finishSync_spec sync err x.staging
    exact ⟨hi.same hsub hstamp (threads_set (.inl rfl)),
      hs.exclusive.set ht (.inl hpc) fun hd => absurd hd id, hs.inOrder⟩

/-- `finishSync` without a snapshot clears the flag, whoever has set it. -/
theorem run_clears {ok : Bool} (ht : x.threads[t]? = some pc) (hclears : pc.Clears ok)
    (hr : x.staging.run t ok pc = some (staging, pc')) :
    Inv { x with staging, threads := x.threads.set t pc' } ∧
      (Serial { x with staging, threads := x.threads.set t pc' } ↔ ∀ pc ∈ x.threads, ¬ pc.Syncing) := by
  obtain ⟨hpc, sync, err, rfl, rfl⟩ := Staging.run_clears hclears hr
  obtain ⟨hflag, hstamp, hsub⟩ := finishSync_spec sync err x.staging
  refine ⟨hi.same hsub hstamp (threads_set (.inl rfl)), fun h pc' hpc' hsync => ?_, fun h => ⟨?_, hs.inOrder⟩⟩
  · -- the goroutine itself is in no sync, so it is another one that finds the flag clear
    have hclear := h.exclusive
    simp only [hflag] at hclear
    obtain ⟨i, hget⟩ := mem_iff_getElem?.1 hpc'
    have hne : t ≠ i := by
      rintro rfl
      cases ht.symm.trans hget
      exact hpc hsync
    refine Exclusive.clear_iff.1 hclear pc' (mem_of_getElem? (i := i) ?_) hsync
    rw [getElem?_set_ne hne, hget]
  · simp only [hflag]
    refine Exclusive.clear_iff.2 fun pc' hpc' => ?_
    rcases mem_or_eq_of_mem_set hpc' with hpc' | rfl
    · exact h pc' hpc'
    · exact id

/-- **One step** of a volume that is serial keeps it so exactly if no goroutine
without a snapshot clears the flag of a sync. -/
theorem step_serial {x' : SyncSystem} {e : SyncEvent} (h : x.step e = some x') :
    Inv x' ∧ (Serial x' ↔ x.FinishesAlone e) := by
  cases e with simp only [step] at h
  | write ino chunks ok =>
    cases h
    have ha := advances_writeFile ino chunks ok x.staging
    refine InvSerial.iff ⟨hi.advance ha.behind (ha.staged hi.staged) fun pc hpc => .inr ⟨pc, hpc, List.Sublist.refl _⟩,
      ?_, hs.inOrder⟩ trivial
    rw [ha.flag]
    exact hs.exclusive
  | call c =>
    cases h
    have hpc : ¬ c.pc.Syncing := by cases c <;> exact id
    exact (spawn_serial hi hs hpc _).iff trivial
  | fire timer =>
    split at h <;> cases h
    rename_i kind _
    have hpc : ¬ kind.pc.Syncing := by cases kind <;> exact id
    exact (spawn_serial hi hs hpc _).iff trivial
  | giveUp t =>
    split at h <;> cases h
    all_goals exact InvSerial.iff ⟨hi.same (List.Subset.refl _) rfl (threads_set (.inl rfl)),
      hs.exclusive.outside id, hs.inOrder⟩ trivial
  | run t ok =>
    split at h
    · cases h
    rename_i pc ht
    split at h <;> cases h
    rename_i staging pc' hr
    by_cases hpc : pc.Syncing
    · refine InvSerial.iff (run_sync hi hs ht hpc hr) fun pc'' ht' hclears => ?_
      cases ht.symm.trans ht'
      exact absurd hclears (Pc.not_clears hpc)
    · rw [Pc.commits_of_not_syncing hpc, append_nil]
      by_cases hclears : pc.Clears ok
      · obtain ⟨hi', hiff⟩ := run_clears hi hs ht hclears hr
        refine ⟨hi', hiff.trans ⟨fun hnone _ _ _ => hnone, fun h => h pc ht hclears⟩⟩
      · have hok : x.FinishesAlone (.run t ok) := by
          intro pc'' ht' hclears'
          cases ht.symm.trans ht'
          exact absurd hclears' hclears
        have hp := run_proceeds hpc hclears hr
        rcases hp.flag with ⟨hpc', hflag⟩ | ⟨hclear, hset, sync, rfl, hsub⟩
        · refine InvSerial.iff ⟨hi.same (by rw [hp.stagedChunks]; exact List.Subset.refl _) hp.stagings
            (threads_set (.inl (Pc.uncommitted_of_not_syncing hpc'))), ?_, hs.inOrder⟩ hok
          rw [hflag]
          exact hs.exclusive.outside hpc'
        · exact InvSerial.iff (begin_sync hi hs ht hclear hset hp.stagedChunks hp.stagings hsub) hok

end

/-! Runs. -/

theorem init_inv (requirePermanent : Bool) : Inv (init requirePermanent) where
  staged _ h := absurd h not_mem_nil
  committed _ h := absurd h not_mem_nil
  held _ h := absurd h not_mem_nil
  keys _ h := absurd h not_mem_nil

/-- **One sync at a time.** Along every run of a new volume, `syncInProgress` is set
while a sync is in progress, at most one is, and commits follow the order of the
writes, exactly if `finishSync` is called without a snapshot only while no sync is in
progress. -/
theorem serial_iff (requirePermanent : Bool) (events : List SyncEvent) :
    Throughout step Serial (init requirePermanent) events ↔ Allowed step FinishesAlone (init requirePermanent) events :=
  throughout_iff_allowed (fun _ _ _ hi hs => step_serial hi hs) events (init_inv requirePermanent)
    ⟨Exclusive.nil _ _, List.Pairwise.nil⟩

/-- The first call finds nothing to sync; before it gets to `finishSync`, a chunk is
written and a second call takes its snapshot. -/
def flagClearedRun : List SyncEvent :=
  [.call (.fsyncWithEpoch 1 true .unspecified), .run 0 true, .write 1 [{ index := 0, data := [1] }] true,
    .call (.fsyncWithEpoch 1 true .unspecified), .run 1 true, .run 0 true]

/-- The chunk is written again; a third call takes its snapshot, commits it and
returns, and then the second call commits. -/
def overtakenRun : List SyncEvent :=
  flagClearedRun ++ [.write 1 [{ index := 0, data := [2] }] true,
    .call (.fsyncWithEpoch 1 true .unspecified), .run 2 true, .run 2 true, .run 2 true, .run 2 true,
    .run 2 true, .run 1 true, .run 1 true]

/-- **Two syncs at once**: the flag is clear while a sync is in progress, and so an
older chunk is committed over a newer one, which is no longer staged either. -/
theorem serial_violated :
    (∃ x, Reach (· = init false) step always x ∧ x.staging.syncInProgress = false ∧ ∃ pc ∈ x.threads, pc.Syncing) ∧
    ∃ x, Reach (· = init false) step always x ∧ x.staging.stagedChunks.entries = [] ∧
      x.committed = [⟨(1, 0), ⟨⟨2, [2]⟩, 1⟩⟩, ⟨(1, 0), ⟨⟨1, [1]⟩, 0⟩⟩] :=
  ⟨⟨(exec step (init false) flagClearedRun).get (by decide), Reach.of_exec rfl (some_get _).symm, by decide, by decide⟩,
    ⟨(exec step (init false) overtakenRun).get (by decide), Reach.of_exec rfl (some_get _).symm, by decide, by decide⟩⟩

end SyncSystem

end InClusterStorage.Controller
