import InClusterStorage.Controller.SerialSyncs

/- Whether a call that waits for a sync is forgotten.

   A waiter is in `coalesceWaiters` until a `finishSync` answers it. Something must come
   that calls `finishSync`: a sync, a timer, or the goroutine of a timer that has fired. The
   fields `coalesceTimer` and `closeTimer` do not tell: a goroutine of a timer that was stopped
   too late clears the field of the next timer, which fires all the same. So timers are looked
   at themselves here.

   1. `waiters_attended`: along every run every waiter is attended if there is no waiter when
      `triggerCoalesceSync` finds nothing staged, and none when a blocking call with nothing
      to sync cannot flush the stream.
   2. `waiters_stranded`: the staged chunks are synced by the close of another file, or
      removed, or the flush fails, and a waiter is left alone. -/
namespace InClusterStorage.Controller

open Staging List Runs Option

/-! The machine. -/

/-- What else happens to the staged chunks. -/
inductive WaiterEvent where
  | sync (e : SyncEvent)
  /-- the first section of `TruncateFile` drops chunks and cuts others -/
  | truncate (ino : Nat) (dropped : List Nat) (cut : List Staging.ChunkWrite)
  | unlink (ino : Nat)
  /-- `RestoreSnapshot` forgets what is staged. It has found no sync in progress before, but
  has released the mutex since. -/
  | restore
  deriving DecidableEq, Repr

namespace Staging

def dropStagedChunkLocked (ino : Nat) (s : Staging) (index : Nat) : Staging :=
  { s with stagedChunks := s.stagedChunks.erase (ino, index) }

def truncateStaged (ino : Nat) (dropped : List Nat) (cut : List ChunkWrite) (s : Staging) : Staging :=
  cut.foldl (stageChunk ino) (dropped.foldl (dropStagedChunkLocked ino) s)

def resetStaging (s : Staging) : Staging := { s with stagedChunks := ∅, activePack := none }

end Staging

instance : DecidablePred Pc.Finishes
  | .skipping _ _ _ | .uploading _ | .appending _ | .awaiting _ | .finishing _ _ => isTrue trivial
  | .fsync _ _ _ | .fsyncIdle | .waiting | .coalesce | .close | .closeIdle | .openBarrier _
  | .flushToBackend | .done _ => isFalse id

/-- The goroutine of a close timer, which may have to wait. -/
def Pc.Closes (pc : Pc) : Prop := pc = .close ∨ pc = .closeIdle

instance : DecidablePred Pc.Closes := fun pc => by
  unfold Pc.Closes
  infer_instance

/-- One of the goroutines is such. -/
def Someone (P : Pc → Prop) (threads : List Pc) : Prop := ∃ pc ∈ threads, P pc

instance {P : Pc → Prop} [DecidablePred P] (threads : List Pc) : Decidable (Someone P threads) := by
  unfold Someone
  infer_instance

/-- Something will come for every waiter: a `finishSync`, the timer for all files, or the
timer for files that are closed, if the waiter's file is among them. -/
def Staging.AttendedBy (s : Staging) (finishes coalesces closes : Prop) : Prop :=
  ∀ w ∈ s.coalesceWaiters, finishes ∨ (⟨.coalesce, .armed⟩ ∈ s.timers ∨ coalesces) ∨
    (⟨.close, .armed⟩ ∈ s.timers ∨ closes) ∧ w.inodeID ∈ s.closeInodes.getD []

instance (s : Staging) (finishes coalesces closes : Prop) [Decidable finishes] [Decidable coalesces] [Decidable closes] :
    Decidable (s.AttendedBy finishes coalesces closes) := by
  unfold Staging.AttendedBy
  infer_instance

namespace SyncSystem

def waiterStep (x : SyncSystem) : WaiterEvent → Option SyncSystem
  | .sync e => x.step e
  | .truncate ino dropped cut => some { x with staging := x.staging.truncateStaged ino dropped cut }
  | .unlink ino => some { x with staging := x.staging.dropStagedChunksLocked ino }
  | .restore => some { x with staging := x.staging.resetStaging }

def Attended (x : SyncSystem) : Prop :=
  x.staging.AttendedBy (Someone Pc.Finishes x.threads) (Someone (· = .coalesce) x.threads) (Someone Pc.Closes x.threads)

end SyncSystem

/-- The goroutine gives up its duty: the timer's goroutine finds nothing staged, or the flush
before `finishSync` fails. -/
def Staging.Neglects (s : Staging) (ok : Bool) : Pc → Prop
  | .coalesce => s.syncInProgress = false ∧ s.stagedChunks.entries = []
  | .skipping _ _ mustFlush => mustFlush = true ∧ ok = false
  | _ => False

instance (s : Staging) (ok : Bool) (pc : Pc) : Decidable (s.Neglects ok pc) := by
  unfold Staging.Neglects
  split <;> infer_instance

/-- Nobody gives up a duty while there are waiters. -/
def SyncSystem.Heeds (x : SyncSystem) : WaiterEvent → Prop
  | .sync (.run t ok) => ∀ pc ∈ x.threads[t]?, x.staging.Neglects ok pc → x.staging.coalesceWaiters = []
  | _ => True

instance (x : SyncSystem) : Decidable x.Attended := by
  unfold SyncSystem.Attended
  infer_instance

instance (x : SyncSystem) (e : WaiterEvent) : Decidable (x.Heeds e) := by
  unfold SyncSystem.Heeds
  split <;> infer_instance

/-! Goroutines. -/

/-- Another goroutine is such. -/
def Others (P : Pc → Prop) (t : Nat) (threads : List Pc) : Prop := ∃ i pc, i ≠ t ∧ threads[i]? = some pc ∧ P pc

section Threads

variable {P : Pc → Prop} {threads : List Pc} {t : Nat} {pc pc' : Pc}

theorem someone_iff (ht : threads[t]? = some pc) : Someone P threads ↔ P pc ∨ Others P t threads := by
  constructor
  · rintro ⟨q, hq, hP⟩
    obtain ⟨i, hi⟩ := mem_iff_getElem?.mp hq
    by_cases heq : i = t
    · subst heq
      exact .inl (some.inj (ht.symm.trans hi) ▸ hP)
    · exact .inr ⟨i, q, heq, hi, hP⟩
  · rintro (hP | ⟨i, q, -, hi, hP⟩)
    · exact ⟨pc, mem_of_getElem? ht, hP⟩
    · exact ⟨q, mem_of_getElem? hi, hP⟩

theorem someone_set (ht : threads[t]? = some pc) : Someone P (threads.set t pc') ↔ P pc' ∨ Others P t threads := by
  have hlt : t < threads.length := (List.getElem?_eq_some_iff.mp ht).1
  have hset : (threads.set t pc')[t]? = some pc' := getElem?_set_self hlt
  rw [someone_iff hset]
  refine or_congr_right (exists₂_congr fun i q => and_congr_right fun hne => ?_)
  rw [getElem?_set_ne (Ne.symm hne)]

theorem someone_append : Someone P (threads ++ [pc]) ↔ Someone P threads ∨ P pc := by
  simp only [Someone, mem_append, mem_singleton, or_and_right, exists_or, exists_eq_left]

end Threads

/-! Timers. -/

namespace Staging

/-- The timers that the fields know are armed, or their goroutines are there. -/
structure Armed (s : Staging) (coalesces closes : Prop) : Prop where
  coalesce : ∀ i ∈ s.coalesceTimer, ∃ state, s.timers[i]? = some ⟨.coalesce, state⟩ ∧ (state = .armed ∨ coalesces)
  close : ∀ i ∈ s.closeTimer, ∃ state, s.timers[i]? = some ⟨.close, state⟩ ∧ (state = .armed ∨ closes)

variable {s s' : Staging} {coalesces coalesces' closes closes' finishes finishes' : Prop}

/-- One of the fields. -/
def Known (kind : TimerKind) (alive : Prop) (field : Option Nat) (timers : List Timer) : Prop :=
  ∀ i ∈ field, ∃ state, timers[i]? = some ⟨kind, state⟩ ∧ (state = .armed ∨ alive)

section Known

variable {kind kind' : TimerKind} {alive alive' : Prop} {field field' : Option Nat} {timers : List Timer}

theorem Known.mono (h : Known kind alive field timers) (himp : alive → alive') : Known kind alive' field timers := by
  intro i hi
  obtain ⟨state, hstate, harmed⟩ := h i hi
  exact ⟨state, hstate, harmed.imp id himp⟩

theorem Known.append (h : Known kind alive field timers) (timer : Timer) : Known kind alive field (timers ++ [timer]) := by
  intro i hi
  obtain ⟨state, hstate, harmed⟩ := h i hi
  exact ⟨state, by rwa [List.getElem?_append_left (List.getElem?_eq_some_iff.mp hstate).1], harmed⟩

theorem known_last : Known kind alive (some timers.length) (timers ++ [⟨kind, .armed⟩]) := by
  rintro i ⟨⟩
  exact ⟨.armed, by simp, .inl rfl⟩

section

variable (h : Known kind alive field timers)
include h

theorem Known.stopped (hother : Known kind' alive' field' timers) (hne : kind' ≠ kind) :
    Known kind alive field (stopped field' timers) := by
  intro j hj
  obtain ⟨state, hstate, harmed⟩ := h j hj
  refine ⟨state, ?_, harmed⟩
  cases hi : field' with
  | none => exact hstate
  | some i =>
    obtain ⟨state', hstate', -⟩ := hother i hi
    have hij : i ≠ j := by
      rintro rfl
      cases hstate'.symm.trans hstate
      exact hne rfl
    simp only [Staging.stopped, hstate']
    cases state' with
    | armed =>
      rwa [getElem?_set_ne hij]
    | fired | stopped => exact hstate

theorem Known.mem (hne : field ≠ none) : ⟨kind, .armed⟩ ∈ timers ∨ alive := by
  obtain ⟨i, hi⟩ := ne_none_iff_exists'.mp hne
  obtain ⟨state, hstate, rfl | hc⟩ := h i hi
  · exact .inl (mem_of_getElem? hstate)
  · exact .inr hc

theorem Known.fire {i : Nat} (hfire : timers[i]? = some ⟨kind', .armed⟩) (hmore : alive → alive')
    (hpc : kind = kind' → alive') : Known kind alive' field (timers.set i ⟨kind', .fired⟩) := by
  intro j hj
  obtain ⟨state, hstate, harmed⟩ := h j hj
  by_cases hij : i = j
  · subst hij
    cases hfire.symm.trans hstate
    exact ⟨.fired, List.getElem?_set_self (List.getElem?_eq_some_iff.mp hfire).1, .inr (hpc rfl)⟩
  · exact ⟨state, by rwa [getElem?_set_ne hij], harmed.imp id hmore⟩

end

theorem armed_fire {i : Nat} (hfire : timers[i]? = some ⟨kind', .armed⟩) (h : ⟨kind, .armed⟩ ∈ timers) :
    ⟨kind, .armed⟩ ∈ timers.set i ⟨kind', .fired⟩ ∨ kind = kind' := by
  obtain ⟨j, hj⟩ := mem_iff_getElem?.mp h
  by_cases hij : i = j
  · subst hij
    cases hfire.symm.trans hj
    exact .inr rfl
  · exact .inl (mem_of_getElem? ((getElem?_set_ne hij).trans hj))

end Known

section

variable (h : s.Armed coalesces closes)
include h

theorem Armed.mono (hc : coalesces → coalesces') (hd : closes → closes') : s.Armed coalesces' closes' :=
  ⟨Known.mono h.coalesce hc, Known.mono h.close hd⟩

theorem Armed.of_same (hsame : SameTimers s s') : s'.Armed coalesces closes := by
  constructor
  · rw [hsame.timers, hsame.coalesceTimer]
    exact h.coalesce
  · rw [hsame.timers, hsame.closeTimer]
    exact h.close

theorem Armed.armCoalesce : s.armCoalesce.Armed coalesces' closes :=
  ⟨known_last, Known.append h.close _⟩

theorem Armed.armClose : s.armClose.Armed coalesces closes' :=
  ⟨Known.append h.coalesce _, known_last⟩

theorem Armed.stopCoalesce : s.stopCoalesce.Armed coalesces' closes :=
  ⟨nofun, Known.stopped h.close h.coalesce (by decide)⟩

theorem Armed.stopClose : s.stopClose.Armed coalesces closes' :=
  ⟨Known.stopped h.coalesce h.close (by decide), nofun⟩

theorem Armed.clearCoalesce : Armed { s with coalesceTimer := none } coalesces' closes :=
  ⟨nofun, h.close⟩

theorem Armed.clearClose : Armed { s with closeTimer := none } coalesces closes' :=
  ⟨h.coalesce, nofun⟩

end

/-! Sections of a sync. -/

theorem Armed.leaveClose (h : s.Armed coalesces closes) (ino : Nat) : (s.leaveClose ino).Armed coalesces closes := by
  unfold Staging.leaveClose
  split
  · exact h
  case h_2 inodes hinodes =>
    have herase : Armed { s with closeInodes := some (inodes.erase ino) } coalesces closes := h.of_same ⟨rfl, rfl, rfl⟩
    split
    · exact herase.stopClose
    · exact herase

/-- `finishSync` leaves no waiter without a timer. -/
theorem Armed.finishSync (h : s.Armed coalesces closes) (sync : Sync) (err : Option SyncError) :
    (s.finishSync sync err).Armed coalesces closes ∧
      ((s.finishSync sync err).coalesceWaiters ≠ [] →
        ⟨.coalesce, .armed⟩ ∈ (s.finishSync sync err).timers ∨ coalesces) := by
  unfold Staging.finishSync
  extract_lets cleared s₁ complete s₂ s₃
  have h₁ : s₁.Armed coalesces closes := by
    cases err with
    | none | some e => exact h.of_same ⟨rfl, rfl, rfl⟩
  have h₂ : s₂.Armed coalesces closes := h₁.of_same ⟨rfl, rfl, rfl⟩
  have h₃ : s₃.Armed coalesces closes ∧ (s₃.coalesceWaiters ≠ [] → ⟨.coalesce, .armed⟩ ∈ s₃.timers ∨ coalesces) := by
    by_cases hcond : (s₂.coalesceWaiters ≠ [] ∨ s₂.stagedChunks.entries ≠ []) ∧ s₂.coalesceTimer = none
    · have heq : s₃ = s₂.armCoalesce := if_pos hcond
      rw [heq]
      exact ⟨h₂.armCoalesce, fun _ => .inl (by simp [Staging.armCoalesce])⟩
    · have heq : s₃ = s₂ := if_neg hcond
      rw [heq]
      exact ⟨h₂, fun hne => Known.mem h₂.coalesce fun hnone => hcond ⟨.inl hne, hnone⟩⟩
  split
  · exact ⟨h₃.1.armClose, fun hne => (h₃.2 hne).imp (mem_append_left _) id⟩
  · exact h₃

end Staging

/-! What a section does for the waiters. -/

namespace Staging

variable {s s' : Staging} {coalesces coalesces' closes closes' finishes finishes' : Prop}

theorem attendedBy_of_finishes (h : finishes) : s.AttendedBy finishes coalesces closes := fun _ _ => .inl h

theorem attendedBy_of_nil (h : s.coalesceWaiters = []) : s.AttendedBy finishes coalesces closes :=
  fun _ hw => absurd (h ▸ hw) not_mem_nil

section

variable (h : s.AttendedBy finishes coalesces closes)
include h

theorem AttendedBy.mono (hf : finishes → finishes')
    (hc : coalesces → coalesces') (hd : closes → closes') : s.AttendedBy finishes' coalesces' closes' := by
  intro w hw
  obtain hfin | hco | ⟨hcl, hino⟩ := h w hw
  · exact .inl (hf hfin)
  · exact .inr (.inl (hco.imp id hc))
  · exact .inr (.inr ⟨hcl.imp id hd, hino⟩)

/-- Timers and closed files are added, and waiters for a close. -/
theorem AttendedBy.register (ht : s.timers ⊆ s'.timers) (hc : s.closeInodes.getD [] ⊆ s'.closeInodes.getD [])
    (hw : ∀ w ∈ s'.coalesceWaiters, w ∈ s.coalesceWaiters ∨
      (⟨.close, .armed⟩ ∈ s'.timers ∨ closes) ∧ w.inodeID ∈ s'.closeInodes.getD []) :
    s'.AttendedBy finishes coalesces closes := by
  intro w hmem
  obtain hold | hnew := hw w hmem
  · obtain hfin | hco | ⟨hcl, hino⟩ := h w hold
    · exact .inl hfin
    · exact .inr (.inl (hco.imp (fun hmem => ht hmem) id))
    · exact .inr (.inr ⟨hcl.imp (fun hmem => ht hmem) id, hc hino⟩)
  · exact .inr (.inr hnew)

theorem AttendedBy.of_eq (hw : s'.coalesceWaiters = s.coalesceWaiters)
    (ht : s'.timers = s.timers) (hc : s'.closeInodes = s.closeInodes) : s'.AttendedBy finishes coalesces closes :=
  h.register (ht ▸ List.Subset.refl _) (hc ▸ List.Subset.refl _) fun _ hmem => .inl (hw ▸ hmem)

end

section

variable (h : s.Armed coalesces closes)
include h

/-- `finishSync` attends to the waiters that it does not answer. -/
theorem Armed.finishSync_attends (sync : Sync) (err : Option SyncError) :
    (s.finishSync sync err).AttendedBy finishes coalesces closes' :=
  fun _ hw => .inr (.inl ((h.finishSync sync err).2 (ne_nil_of_mem hw)))

theorem Armed.registerClose (hD : closes → closes')
    (hatt : s.AttendedBy finishes coalesces closes') (ino t : Nat) {s₁ : Staging}
    (hs₁ : s₁ = { s with closeInodes := some ((s.closeInodes.getD []).insert ino) }.addWaiter ino t) :
    Armed (if s₁.closeTimer = none then s₁.armClose else s₁) coalesces closes ∧
      AttendedBy (if s₁.closeTimer = none then s₁.armClose else s₁) finishes coalesces closes' := by
  subst hs₁
  set s₁ := { s with closeInodes := some ((s.closeInodes.getD []).insert ino) }.addWaiter ino t
  have h₁ : s₁.Armed coalesces closes := h.of_same ⟨rfl, rfl, rfl⟩
  have hino : ino ∈ s₁.closeInodes.getD [] := mem_insert_self
  -- the waiters that were there, and the new one
  have hall {s₂ : Staging} (hwaiters : s₂.coalesceWaiters = s₁.coalesceWaiters)
      (hcloses : s₂.closeInodes = s₁.closeInodes) (htimers : s.timers ⊆ s₂.timers)
      (hclose : ⟨.close, .armed⟩ ∈ s₂.timers ∨ closes') : s₂.AttendedBy finishes coalesces closes' := by
    rw [← hcloses] at hino
    refine hatt.register htimers (hcloses ▸ fun _ hmem => mem_insert_of_mem hmem) fun w hw => ?_
    rw [hwaiters] at hw
    obtain hold | hnew := mem_append.mp hw
    · exact .inl hold
    · cases mem_singleton.mp hnew
      exact .inr ⟨hclose, hino⟩
  split_ifs with hnone
  · refine ⟨h₁.armClose, hall rfl rfl ?_ (.inl (by simp [Staging.armClose]))⟩
    exact fun _ hmem => mem_append_left _ hmem
  · exact ⟨h₁, hall rfl rfl (List.Subset.refl _) ((Known.mem h₁.close hnone).imp id hD)⟩

theorem Armed.registerCoalesce (ino t : Nat) {s₁ : Staging} (hs₁ : s₁ = s.addWaiter ino t) :
    Armed (if s₁.coalesceTimer = none then s₁.armCoalesce else s₁) coalesces closes ∧
      AttendedBy (if s₁.coalesceTimer = none then s₁.armCoalesce else s₁) finishes coalesces closes' := by
  subst hs₁
  have h₁ : (s.addWaiter ino t).Armed coalesces closes := h.of_same ⟨rfl, rfl, rfl⟩
  split_ifs with hnone
  · exact ⟨h₁.armCoalesce, fun _ _ => .inr (.inl (.inl (by simp [Staging.armCoalesce])))⟩
  · exact ⟨h₁, fun _ _ => .inr (.inl (Known.mem h₁.coalesce hnone))⟩

end

/-- What is known of the timers and the waiters, where one goroutine is at `pc` and the others
are such as `O` (on their way to `finishSync`), `C` (of the timer for all files), `D` (of the
close timer) and `D'` (the same, or waiting) say. -/
structure Duty (O C D D' : Prop) (s : Staging) (pc : Pc) : Prop where
  armed : s.Armed (pc = .coalesce ∨ C) (pc = .close ∨ D)
  attended : s.AttendedBy (pc.Finishes ∨ O) (pc = .coalesce ∨ C) (pc.Closes ∨ D')

variable {O C D D' : Prop} {t : Nat} {ok : Bool} {pc pc' : Pc}

theorem Duty.busy (h : s.Armed C D) (hpc : pc.Finishes) : Duty O C D D' s pc :=
  ⟨h.mono .inr .inr, attendedBy_of_finishes (.inl hpc)⟩

theorem Duty.idle (h : s.Armed C D) (hatt : s.AttendedBy O C D') : Duty O C D D' s pc :=
  ⟨h.mono .inr .inr, hatt.mono .inr .inr .inr⟩

/-- The goroutine at `pc` does nothing for the waiters. -/
theorem Duty.of_idle (h : Duty O C D D' s pc) (hf : ¬ pc.Finishes) (hc : pc ≠ .coalesce) (hd : ¬ pc.Closes) :
    s.Armed C D ∧ s.AttendedBy O C D' := by
  have hclose : pc ≠ .close := fun heq => hd (.inl heq)
  refine ⟨h.armed.mono (·.resolve_left hc) (·.resolve_left hclose), ?_⟩
  exact h.attended.mono (·.resolve_left hf) (·.resolve_left hc) (·.resolve_left hd)

theorem Duty.armed_of_finishes (h : Duty O C D D' s pc) (hf : pc.Finishes) : s.Armed C D := by
  refine h.armed.mono (fun h => h.resolve_left ?_) fun h => h.resolve_left ?_
  · intro heq
    subst heq
    exact hf
  · intro heq
    subst heq
    exact hf

theorem Armed.begins (h : s.Armed C D) {result : Staging × Pc} (hbegins : s.Begins result)
    (heq : some result = some (s', pc')) : Duty O C D D' s' pc' := by
  cases heq
  exact .busy (h.of_same hbegins.timers) hbegins.finishes

theorem Duty.closeSync (h : s.Armed C D) (hatt : s.AttendedBy O C (True ∨ D'))
    (heq : some (s.closeSync ok) = some (s', pc')) : Duty O C D D' s' pc' := by
  obtain hbegins | ⟨hnil, hdone⟩ := closeSync_begins ok s
  · exact h.begins hbegins heq
  rw [hdone] at heq
  cases heq
  refine .idle h fun w hw => ?_
  obtain hfin | hco | ⟨-, hino⟩ := hatt w hw
  · exact .inl hfin
  · exact .inr (.inl hco)
  · rw [hnil] at hino
    exact absurd hino not_mem_nil

theorem run_fsync {ino : Nat} {blocking : Bool} {trigger : SyncTrigger} (hD : D → D')
    (h : s.run t ok (.fsync ino blocking trigger) = some (s', pc')) (hflag : s.syncInProgress = true → O)
    (harmed : s.Armed C D) (hatt : s.AttendedBy O C D') : Duty O C D D' s' pc' := by
  cases blocking with
  | true =>
    simp only [run] at h
    split at h
    · cases h
      exact .idle (harmed.of_same ⟨rfl, rfl, rfl⟩) (hatt.of_eq rfl rfl rfl)
    have hstopped : Armed { s.stopCoalesce.stopClose with closeInodes := none } C D :=
      harmed.stopCoalesce.stopClose.of_same ⟨rfl, rfl, rfl⟩
    split at h
    case isTrue hbusy =>
      cases h
      exact .idle hstopped (attendedBy_of_finishes (hflag hbusy))
    case isFalse => exact hstopped.begins (blockingSync_begins ok _) h
  | false =>
    have hother {s₁ : Staging} (hs₁ : s₁ = s.addWaiter ino t) :
        Duty O C D D' (if s₁.coalesceTimer = none then s₁.armCoalesce else s₁) .waiting := by
      obtain ⟨harmed', hatt'⟩ := harmed.registerCoalesce ino t hs₁
      exact .idle harmed' hatt'
    cases trigger with simp only [run] at h
    | close =>
      split at h <;> cases h
      · obtain ⟨harmed', hatt'⟩ := harmed.registerClose hD hatt ino t rfl
        exact .idle harmed' hatt'
      · exact .idle harmed hatt
    | unspecified | periodic =>
      split at h <;> cases h
      · exact .idle harmed hatt
      · exact hother rfl

/-- A section in which no duty is given up, or only where nobody waits. -/
theorem run_duty (hD : D → D') (h : s.run t ok pc = some (s', pc')) (hheeds : s.Neglects ok pc → s.coalesceWaiters = [])
    (hflag : s.syncInProgress = true → pc.Finishes ∨ O) (hduty : Duty O C D D' s pc) : Duty O C D D' s' pc' := by
  have hfinish {sync : Sync} {err : Option SyncError} (hpc : pc.Finishes) : Duty O C D D' (s.finishSync sync err)
      (.done err) := by
    have harmed := hduty.armed_of_finishes hpc
    exact .idle (harmed.finishSync sync err).1 (harmed.finishSync_attends sync err)
  cases pc with
  | done err => simp [run] at h
  | waiting =>
    obtain ⟨harmed, hatt⟩ := hduty.of_idle id (by simp) (by simp [Pc.Closes])
    obtain ⟨err, -, heq⟩ := map_eq_some_iff.mp h
    cases heq
    exact .idle harmed hatt
  | fsync ino blocking trigger =>
    obtain ⟨harmed, hatt⟩ := hduty.of_idle id (by simp) (by simp [Pc.Closes])
    exact run_fsync hD h (fun hbusy => (hflag hbusy).resolve_left id) harmed hatt
  | fsyncIdle =>
    obtain ⟨harmed, -⟩ := hduty.of_idle id (by simp) (by simp [Pc.Closes])
    simp only [run] at h
    split at h
    · cases h
    · exact harmed.begins (blockingSync_begins ok s) h
  | coalesce =>
    have hcleared : Armed { s with coalesceTimer := none } C D :=
      (hduty.armed.mono id (·.resolve_left (by simp))).clearCoalesce
    simp only [run] at h
    split at h
    case isTrue hcond =>
      cases h
      by_cases hbusy : s.syncInProgress = true
      · exact .idle hcleared (attendedBy_of_finishes ((hflag hbusy).resolve_left id))
      · have hnone := hheeds ⟨Bool.not_eq_true _ ▸ hbusy, hcond.resolve_left hbusy⟩
        exact .idle hcleared (attendedBy_of_nil hnone)
    case isFalse =>
      have hstopped : Armed { ({ s with coalesceTimer := none } : Staging).stopClose with closeInodes := none } C D :=
        hcleared.stopClose.of_same ⟨rfl, rfl, rfl⟩
      exact hstopped.begins (executeSyncLocked_begins ok none _) h
  | close =>
    have hcleared : Armed { s with closeTimer := none } C D :=
      (hduty.armed.mono (·.resolve_left (by simp)) id).clearClose
    have hatt : AttendedBy { s with closeTimer := none } O C (True ∨ D') :=
      (hduty.attended.mono (·.resolve_left id) (·.resolve_left (by simp)) (fun _ => .inl trivial)).of_eq rfl rfl rfl
    simp only [run] at h
    split at h
    case isTrue hbusy =>
      cases h
      exact .idle hcleared (attendedBy_of_finishes ((hflag hbusy).resolve_left id))
    case isFalse => exact Duty.closeSync hcleared hatt h
  | closeIdle =>
    have harmed : s.Armed C D := hduty.armed.mono (·.resolve_left (by simp)) (·.resolve_left (by simp))
    have hatt : s.AttendedBy O C (True ∨ D') :=
      hduty.attended.mono (·.resolve_left id) (·.resolve_left (by simp)) (fun _ => .inl trivial)
    simp only [run] at h
    split at h
    · cases h
    · exact Duty.closeSync harmed hatt h
  | openBarrier ino =>
    obtain ⟨harmed, hatt⟩ := hduty.of_idle id (by simp) (by simp [Pc.Closes])
    simp only [run] at h
    split at h
    · cases h
      exact .idle harmed hatt
    · split at h
      · cases h
      · exact (harmed.leaveClose ino).begins (syncInodesLocked_begins ok [ino] _) h
  | flushToBackend =>
    obtain ⟨harmed, hatt⟩ := hduty.of_idle id (by simp) (by simp [Pc.Closes])
    obtain ⟨-, h⟩ := ite_none_left_eq_some.mp h
    split at h
    · cases h
      exact .idle harmed hatt
    · exact harmed.begins (executeSyncLocked_begins ok none s) h
  | skipping sync err mustFlush =>
    simp only [run] at h
    split at h
    case isTrue hfail =>
      cases h
      exact .idle (hduty.armed_of_finishes trivial) (attendedBy_of_nil (hheeds hfail))
    case isFalse =>
      cases h
      exact hfinish trivial
  | uploading sync | appending sync =>
    have harmed := hduty.armed_of_finishes trivial
    cases h
    cases ok <;> exact .busy harmed trivial
  | awaiting sync =>
    have harmed := hduty.armed_of_finishes trivial
    cases h
    exact .busy harmed trivial
  | finishing sync err =>
    cases h
    exact hfinish trivial

/-- Whoever sets the flag is on its way to `finishSync`. -/
theorem run_flag (h : s.run t ok pc = some (s', pc')) (hflag : s.syncInProgress = true → pc.Syncing ∨ O)
    (hset : s'.syncInProgress = true) : pc'.Syncing ∨ O := by
  obtain ⟨sync, err, rfl, -⟩ | ⟨-, hsyncing⟩ | ⟨hpc, hp⟩ := run_cases h
  · exact absurd ((finishSync_spec sync err s).1.symm.trans hset) (by simp)
  · exact .inl hsyncing
  · obtain ⟨-, hsame⟩ | ⟨-, -, sync, rfl, -⟩ := hp.flag
    · exact .inr ((hflag (hsame.symm.trans hset)).resolve_left hpc)
    · exact .inl trivial

end Staging

/-! The system. -/

theorem Pc.Syncing.finishes {pc : Pc} (h : pc.Syncing) : pc.Finishes := by
  cases pc <;> trivial

namespace SyncSystem

variable {x x' : SyncSystem}

/-- The timers that the fields know are armed or have their goroutines, and the flag is set
only by a sync that is there. -/
structure WaiterInv (x : SyncSystem) : Prop where
  armed : x.staging.Armed (Someone (· = .coalesce) x.threads) (Someone (· = .close) x.threads)
  flag : x.staging.syncInProgress = true → Someone Pc.Syncing x.threads

def Watched (x : SyncSystem) : Prop := x.WaiterInv ∧ x.Attended

section

variable (hi : x.WaiterInv) (hp : x.Attended)
include hi hp

theorem WaiterInv.run {t : Nat} {ok : Bool} {pc pc' : Pc} {staging : Staging}
    {committed : List StagedEntry} (ht : x.threads[t]? = some pc) (h : x.staging.run t ok pc = some (staging, pc'))
    (hheeds : x.Heeds (.sync (.run t ok))) : Watched { staging, threads := x.threads.set t pc', committed } := by
  have hD : Others (· = Pc.close) t x.threads → Others Pc.Closes t x.threads := by
    rintro ⟨i, q, hne, hget, hq⟩
    exact ⟨i, q, hne, hget, .inl hq⟩
  have hS : Others Pc.Syncing t x.threads → Others Pc.Finishes t x.threads := by
    rintro ⟨i, q, hne, hget, hq⟩
    exact ⟨i, q, hne, hget, hq.finishes⟩
  have hflag : x.staging.syncInProgress = true → pc.Syncing ∨ Others Pc.Syncing t x.threads :=
    fun hset => (someone_iff ht).mp (hi.flag hset)
  have hduty : Duty (Others Pc.Finishes t x.threads) (Others (· = .coalesce) t x.threads) (Others (· = .close) t x.threads)
      (Others Pc.Closes t x.threads) x.staging pc := by
    refine ⟨hi.armed.mono (someone_iff ht).mp (someone_iff ht).mp, ?_⟩
    exact AttendedBy.mono hp (someone_iff ht).mp (someone_iff ht).mp (someone_iff ht).mp
  have hset : ∀ {P : Pc → Prop}, P pc' ∨ Others P t x.threads → Someone P (x.threads.set t pc') := (someone_set ht).mpr
  have hduty' := run_duty hD h (hheeds pc ht) (fun hset => (hflag hset).imp Pc.Syncing.finishes hS) hduty
  refine ⟨⟨?_, fun hinProgress => hset (run_flag h hflag hinProgress)⟩, ?_⟩
  · exact hduty'.armed.mono (hset (P := (· = .coalesce))) (hset (P := (· = .close)))
  · exact AttendedBy.mono hduty'.attended hset (hset (P := (· = .coalesce))) hset

theorem WaiterInv.spawn (pc : Pc) : Watched { x with threads := x.threads ++ [pc] } := by
  have hmore : ∀ {P : Pc → Prop}, Someone P x.threads → Someone P (x.threads ++ [pc]) :=
    fun h => someone_append.mpr (.inl h)
  exact ⟨⟨hi.armed.mono hmore hmore, fun hset => hmore (hi.flag hset)⟩, AttendedBy.mono hp hmore hmore hmore⟩

theorem WaiterInv.giveUp {t : Nat} {pc : Pc} {err : Option SyncError}
    (ht : x.threads[t]? = some pc) (hpc : pc = .waiting ∨ ∃ ino, pc = .openBarrier ino) :
    Watched { x with threads := x.threads.set t (.done err) } := by
  have hkeep : ∀ {P : Pc → Prop}, ¬ P pc → Someone P x.threads → Someone P (x.threads.set t (.done err)) :=
    fun hnot h => (someone_set ht).mpr (.inr (((someone_iff ht).mp h).resolve_left hnot))
  obtain ⟨hc, hd, hs, hf⟩ : pc ≠ .coalesce ∧ ¬ pc.Closes ∧ ¬ pc.Syncing ∧ ¬ pc.Finishes := by
    obtain rfl | ⟨ino, rfl⟩ := hpc <;> exact ⟨by simp, by simp [Pc.Closes], id, id⟩
  exact ⟨⟨hi.armed.mono (hkeep hc) (hkeep fun heq => hd (.inl heq)), fun hset => hkeep hs (hi.flag hset)⟩,
    AttendedBy.mono hp (hkeep hf) (hkeep hc) (hkeep hd)⟩

theorem WaiterInv.fire {i : Nat} {kind : TimerKind}
    (hfire : x.staging.timers[i]? = some ⟨kind, .armed⟩) :
    Watched { x with
      staging := { x.staging with timers := x.staging.timers.set i ⟨kind, .fired⟩ }
      threads := x.threads ++ [kind.pc] } := by
  have hmore : ∀ {P : Pc → Prop}, Someone P x.threads → Someone P (x.threads ++ [kind.pc]) :=
      fun h => someone_append.mpr (.inl h)
  have hpc : ∀ {P : Pc → Prop}, P kind.pc → Someone P (x.threads ++ [kind.pc]) := fun h => someone_append.mpr (.inr h)
  -- an armed timer is still there, or its goroutine is
  have hstill : ∀ {kind' : TimerKind} {P : Pc → Prop}, P kind'.pc →
      ⟨kind', .armed⟩ ∈ x.staging.timers ∨ Someone P x.threads →
      ⟨kind', .armed⟩ ∈ x.staging.timers.set i ⟨kind, .fired⟩ ∨ Someone P (x.threads ++ [kind.pc]) := by
    rintro kind' P hP (harmed | hthread)
    · obtain hmem | rfl := armed_fire hfire harmed
      · exact .inl hmem
      · exact .inr (hpc hP)
    · exact .inr (hmore hthread)
  refine ⟨⟨⟨Known.fire hi.armed.coalesce hfire hmore ?_, Known.fire hi.armed.close hfire hmore ?_⟩,
      fun hset => hmore (hi.flag hset)⟩,
    fun w hw => ?_⟩
  · rintro rfl
    exact hpc rfl
  · rintro rfl
    exact hpc rfl
  · obtain hf | hc | ⟨hd, hin⟩ := hp w hw
    · exact .inl (hmore hf)
    · exact .inr (.inl (hstill rfl hc))
    · exact .inr (.inr ⟨hstill (.inl rfl) hd, hin⟩)

/-! Staging leaves all of this alone. -/

/-- What a section that only stages does not touch. -/
structure Unstaged (s s' : Staging) : Prop extends SameTimers s s' where
  coalesceWaiters : s'.coalesceWaiters = s.coalesceWaiters
  closeInodes : s'.closeInodes = s.closeInodes
  syncInProgress : s'.syncInProgress = s.syncInProgress

omit hi hp in
theorem Unstaged.foldl {α : Type} {f : Staging → α → Staging} (hf : ∀ s a, Unstaged s (f s a)) (as : List α) :
    ∀ s, Unstaged s (as.foldl f s) := by
  induction as with
  | nil => exact fun _ => ⟨⟨rfl, rfl, rfl⟩, rfl, rfl, rfl⟩
  | cons a as ih =>
    intro s
    have hfirst := hf s a
    have hrest := ih (f s a)
    exact ⟨⟨hrest.timers.trans hfirst.timers, hrest.coalesceTimer.trans hfirst.coalesceTimer,
      hrest.closeTimer.trans hfirst.closeTimer⟩, hrest.coalesceWaiters.trans hfirst.coalesceWaiters,
      hrest.closeInodes.trans hfirst.closeInodes, hrest.syncInProgress.trans hfirst.syncInProgress⟩

omit hi hp in
theorem unstaged_stageChunk (ino : Nat) (s : Staging) (w : ChunkWrite) : Unstaged s (stageChunk ino s w) :=
  ⟨⟨rfl, rfl, rfl⟩, rfl, rfl, rfl⟩

omit hi hp in
theorem unstaged_drop (ino : Nat) (s : Staging) (index : Nat) : Unstaged s (dropStagedChunkLocked ino s index) :=
  ⟨⟨rfl, rfl, rfl⟩, rfl, rfl, rfl⟩

theorem WaiterInv.unstaged {staging : Staging} (h : Unstaged x.staging staging) : Watched { x with staging } :=
  ⟨⟨hi.armed.of_same h.toSameTimers, fun hset => hi.flag (h.syncInProgress ▸ hset)⟩,
    AttendedBy.of_eq hp h.coalesceWaiters h.timers h.closeInodes⟩

theorem WaiterInv.write (ino : Nat) (chunks : List ChunkWrite) (ok : Bool) :
    Watched { x with staging := x.staging.writeFile ino chunks ok } := by
  have hstaged := hi.unstaged hp (Unstaged.foldl (unstaged_stageChunk ino) chunks x.staging)
  unfold writeFile
  simp only
  split
  · generalize chunks.foldl (stageChunk ino) x.staging = s at hstaged ⊢
    obtain ⟨hi', hp'⟩ := hstaged.1.unstaged hstaged.2
      (show Unstaged s { s with stagingSeq := s.stagingSeq + 1 } from ⟨⟨rfl, rfl, rfl⟩, rfl, rfl, rfl⟩)
    split
    · refine ⟨⟨Armed.armCoalesce hi'.armed, hi'.flag⟩, fun w hw => ?_⟩
      exact .inr (.inl (.inl (mem_append_right _ (mem_singleton.mpr rfl))))
    · exact ⟨hi', hp'⟩
  · exact hstaged

/-! One step. -/

theorem waiterStep_watched {e : WaiterEvent} (hheeds : x.Heeds e) (h : x.waiterStep e = some x') : x'.Watched := by
  cases e with
  | truncate ino dropped cut =>
    cases h
    obtain ⟨hi', hp'⟩ := hi.unstaged hp (Unstaged.foldl (unstaged_drop ino) dropped x.staging)
    exact hi'.unstaged hp' (Unstaged.foldl (unstaged_stageChunk ino) cut _)
  | unlink ino | restore =>
    cases h
    exact hi.unstaged hp ⟨⟨rfl, rfl, rfl⟩, rfl, rfl, rfl⟩
  | sync e =>
    cases e with simp only [waiterStep, step] at h
    | write ino chunks ok =>
      cases h
      exact hi.write hp ino chunks ok
    | call c =>
      cases h
      exact hi.spawn hp c.pc
    | fire i =>
      split at h
      case h_1 kind hfire =>
        cases h
        exact hi.fire hp hfire
      case h_2 => cases h
    | giveUp t =>
      split at h
      case h_1 ht =>
        cases h
        exact hi.giveUp hp ht (.inl rfl)
      case h_2 ino ht =>
        cases h
        exact hi.giveUp hp ht (.inr ⟨ino, rfl⟩)
      case h_3 => cases h
    | run t ok =>
      split at h
      case h_1 => cases h
      case h_2 pc ht =>
        split at h
        case h_1 => cases h
        case h_2 staging pc' hr =>
          cases h
          exact hi.run hp ht hr hheeds

end

/-! Runs. -/

theorem init_waiterInv (requirePermanent : Bool) : WaiterInv (init requirePermanent) where
  armed := ⟨nofun, nofun⟩
  flag h := nomatch h

/-- **No waiter is stranded, if duties are heeded.** Along every run of a new volume something
will come for every waiter, if there is none whenever the timer's goroutine finds no sync and
nothing staged, or a blocking call with nothing to sync cannot flush. -/
theorem waiters_attended (requirePermanent : Bool) (events : List WaiterEvent)
    (hevents : Allowed waiterStep Heeds (init requirePermanent) events) :
    Throughout waiterStep Attended (init requirePermanent) events :=
  Allowed.throughout (I := Watched) (P := Attended) (fun _ h => h.2)
    (fun _ _ _ h hheeds hs => waiterStep_watched h.1 h.2 hheeds hs) ⟨init_waiterInv requirePermanent, nofun⟩ hevents

/-- A chunk of file 8 is staged, and the periodic sync of `inode` waits. -/
def waitsFor (inode : Nat) : List WaiterEvent :=
  [.sync (.write 8 [{ index := 0, data := [1] }] true), .sync (.call (.fsyncWithEpoch inode false .periodic)),
    .sync (.run 0 true)]

/-- A periodic sync waits and is answered by the timer's sync; then a blocking call with nothing
to sync cannot flush. -/
theorem waiters_attended_answered :
    let run t := WaiterEvent.sync (.run t true)
    let events : List WaiterEvent :=
      waitsFor 8 ++ [.sync (.fire 0), run 1, run 1, run 1, run 1, run 1, run 0,
        .sync (.call (.fsyncWithEpoch 8 true .unspecified)), run 2, .sync (.run 2 false)]
    Allowed waiterStep Heeds (init true) events ∧ Throughout waiterStep Attended (init true) events ∧
      (exec waiterStep (init true) events).map (fun x => (x.staging.coalesceWaiters, x.threads)) =
        some ([], [.done none, .done none, .done (some .flush)]) :=
  ⟨by decide +kernel, waiters_attended true _ (by decide +kernel), by decide +kernel⟩

/-- The periodic sync of a file waits, while the file that has staged chunks is closed: the
close syncs only that one, and the timer for all finds nothing staged. -/
def syncedByClose : List WaiterEvent :=
  waitsFor 9 ++ [.sync (.call (.fsyncWithEpoch 8 false .close)), .sync (.run 1 true), .sync (.fire 1)] ++
    .replicate 5 (.sync (.run 2 true)) ++ [.sync (.fire 0), .sync (.run 3 true)]

/-- The file is removed while its periodic sync waits. -/
def removedWhileWaiting : List WaiterEvent := waitsFor 8 ++ [.unlink 8, .sync (.fire 0), .sync (.run 1 true)]

/-- A blocking call has stopped the timers, finds nothing staged, and cannot flush. -/
def flushFails : List WaiterEvent :=
  waitsFor 8 ++ [.unlink 8, .sync (.call (.fsyncWithEpoch 8 true .unspecified)), .sync (.run 1 true), .sync (.run 1 false)]

/-- **Waiters that nothing comes for**: the state after each run has a waiter, no timer that is
armed, and no goroutine but calls that have returned and the one that waits. -/
theorem waiters_stranded :
    (exec waiterStep (init false) syncedByClose).map
      (fun x => (x.staging.coalesceWaiters, x.staging.timers, x.threads)) =
        some ([⟨1, 9, 0⟩], [⟨.coalesce, .fired⟩, ⟨.close, .fired⟩], [.waiting, .waiting, .done none, .done none]) ∧
      (exec waiterStep (init false) removedWhileWaiting).map
          (fun x => (x.staging.coalesceWaiters, x.staging.timers, x.threads)) =
        some ([⟨1, 8, 0⟩], [⟨.coalesce, .fired⟩], [.waiting, .done none]) ∧
      (exec waiterStep (init true) flushFails).map (fun x => (x.staging.coalesceWaiters, x.staging.timers, x.threads)) =
        some ([⟨1, 8, 0⟩], [⟨.coalesce, .stopped⟩], [.waiting, .done (some .flush)]) ∧
      ¬ Throughout waiterStep Attended (init false) syncedByClose ∧
      ¬ Throughout waiterStep Attended (init false) removedWhileWaiting ∧
      ¬ Throughout waiterStep Attended (init true) flushFails := by
  decide +kernel

end SyncSystem

end InClusterStorage.Controller
