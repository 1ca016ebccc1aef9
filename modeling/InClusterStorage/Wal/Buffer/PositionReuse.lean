import Mathlib.Tactic
import InClusterStorage.Wal.Buffer.RestartHistory

/- Whether positions are used again. `commitItems` numbers on from `lastPosition`, and a restart
   takes that from the names of the segments that are left in the bucket and from the local log.
   `ever` collects the positions that were stored in segments, over all incarnations, and
   `assigned` has the positions that the last step gave to new records. -/
namespace InClusterStorage.Wal.Buffer

open Runs List Option Server

structure Positions where
  server : Server
  ever : List Nat := []
  assigned : List Nat := []

namespace Positions

/-- The positions that `commitItems` assigns in the event. -/
def assigns (x : Positions) : BufferEvent → List Nat
  | .server (.commit items _) => (assignPositions x.server.lastPosition items).map LogRecord.position
  | _ => []

def step (x : Positions) (e : BufferEvent) : Option Positions :=
  (x.server.bufferStep e).map fun s =>
    { server := s, ever := x.ever ++ s.uploaded.flatten.map LogRecord.position, assigned := x.assigns e }

/-- The positions just assigned lie above all that a segment ever contained. -/
def New (x : Positions) : Prop := ∀ q ∈ x.assigned, ∀ p ∈ x.ever, p < q

instance (x : Positions) : Decidable x.New := inferInstanceAs (Decidable (∀ q ∈ x.assigned, _))

/-- For each position that was stored, a restart finds a segment that ends there or beyond, or
a record of the local log that is not below it. -/
def FindsHighest (x : Positions) : BufferEvent → Prop
  | .restart keep _ => ∀ p ∈ x.ever, (∃ path ∈ x.server.store.segments.keys, p ≤ path.lastPos) ∨
      (keep = true ∧ ∃ r ∈ x.server.log, p ≤ r.position)
  | .server _ => True

instance (x : Positions) : ∀ e, Decidable (x.FindsHighest e)
  | .restart _ _ => inferInstanceAs (Decidable (∀ p ∈ x.ever, _))
  | .server _ => isTrue trivial

end Positions

variable {s s' : Server}

/-- The records in segments and on their way to one. -/
def Server.flows (s : Server) : List LogRecord :=
  s.uploaded.flatten ++ s.unflushedRecords ++ s.inFlight ++ s.committing.unqueued

/-- What an event of the server does: the records were there before or have new positions. -/
structure Carries (s s' : Server) : Prop where
  last : s.lastPosition ≤ s'.lastPosition
  flows : ∀ r ∈ s'.flows, r ∈ s.flows ∨ r.position ≤ s'.lastPosition
  segments : ∀ p records, s'.store.segments.lookup p = some records →
    s.store.segments.lookup p = some records ∨ ∀ r ∈ records, r ∈ s'.uploaded.flatten

/-- A flusher goes on with records that were there. -/
theorem carries_setFlusher {pc : FlushPc} (t : Nat) (hlast : s'.lastPosition = s.lastPosition)
    (hflushers : s'.flushers = s.flushers) (hcommitting : s'.committing = s.committing)
    (hflows : ∀ r ∈ s'.uploaded.flatten ++ s'.unflushedRecords ++ pc.batch, r ∈ s.flows)
    (hsegments : ∀ p records, s'.store.segments.lookup p = some records →
      s.store.segments.lookup p = some records ∨ ∀ r ∈ records, r ∈ s'.uploaded.flatten) :
    Carries s (s'.setFlusher t pc) := by
  refine ⟨hlast.ge, fun r hr => .inl ?_, hsegments⟩
  simp only [flows, inFlight, setFlusher, hflushers, hcommitting, mem_append, mem_flatMap] at hr hflows ⊢
  obtain (hr | ⟨pc', hpc', hr⟩) | hr := hr
  · exact hflows r (.inl hr)
  · obtain hold | rfl := mem_or_eq_of_mem_set hpc'
    · exact .inl (.inr ⟨pc', hold, hr⟩)
    · exact hflows r (.inr hr)
  · exact .inr hr

theorem mem_flows_of_flusher {t : Nat} {pc : FlushPc} {r : LogRecord} (hpc : s.flushers[t]? = some pc)
    (hr : r ∈ s.uploaded.flatten ++ s.unflushedRecords ++ pc.batch) : r ∈ s.flows := by
  simp only [flows, inFlight, mem_append, mem_flatMap] at hr ⊢
  exact .inl (hr.imp_right fun hr => ⟨pc, mem_of_getElem? hpc, hr⟩)

theorem carries_stepFlusher {t n : Nat} {ok : Bool} {delOk : SegmentPath → Bool}
    (h : s.stepFlusher t ok delOk n = some s') : Carries s s' := by
  unfold stepFlusher at h
  cases hpc : s.flushers[t]? with
  | none => simp [hpc] at h
  | some pc =>
    have hflows (r) := mem_flows_of_flusher (r := r) hpc
    rw [hpc] at h
    cases pc with
    | done => simp at h
    | entry =>
      simp only at h
      split_ifs at h with hbusy hnone <;> cases h
      · exact carries_setFlusher t rfl rfl rfl hflows fun _ _ => .inl
      · -- the flusher takes the whole queue
        refine carries_setFlusher t rfl rfl rfl (fun r hr => hflows r ?_) fun _ _ => .inl
        simpa [FlushPc.batch] using hr
    | putting records =>
      simp only at h
      split_ifs at h with hok <;> cases h
      · refine carries_setFlusher t rfl rfl rfl (fun r hr => hflows r ?_) fun p records' hl => ?_
        · simp only [putSegment, FlushPc.batch, flatten_append, flatten_cons, flatten_nil, mem_append] at hr ⊢
          tauto
        · simp only [putSegment, StreamStore.putSegment] at hl ⊢
          by_cases hp : p = segPath records
          · rw [hp, AList.lookup_insert, some.injEq] at hl
            refine .inr fun r hr => ?_
            simp [hl, hr]
          · rw [AList.lookup_insert_ne hp] at hl
            exact .inl hl
      · exact carries_setFlusher t rfl rfl rfl hflows fun _ _ => .inl
    | stored records =>
      simp only at h
      split_ifs at h with hidle
      cases h
      exact carries_setFlusher t rfl rfl rfl hflows fun _ _ => .inl
    | marked records =>
      cases h
      exact carries_setFlusher t rfl rfl rfl hflows fun _ _ => .inl
    | tracked =>
      simp only at h
      split_ifs at h with hidle
      cases h
      exact carries_setFlusher t rfl rfl rfl hflows fun _ _ hl => .inl (lookup_of_gc hl)
    | collected =>
      simp only [deleteSegmentsThrough] at h
      split_ifs at h with htrim <;> cases h
      exact carries_setFlusher t rfl rfl rfl hflows fun _ _ => .inl
    | flushed =>
      cases h
      refine carries_setFlusher t rfl rfl rfl (fun r hr => hflows r ?_) fun _ _ => .inl
      split at hr <;> exact hr
    | failed records =>
      cases h
      refine carries_setFlusher t rfl rfl rfl (fun r hr => hflows r ?_) fun _ _ => .inl
      simp only [FlushPc.batch, mem_append] at hr ⊢
      tauto

theorem carries_step {e : ServerEvent} (h : s.step e = some s') : Carries s s' := by
  cases e with
  | flusher t ok delOk n => exact carries_stepFlusher h
  | commit items failed =>
    simp only [step] at h
    split_ifs at h with hcommit
    cases h
    cases failed with
    | none =>
      refine ⟨Nat.le_add_right _ _, fun r hr => ?_, fun _ _ => .inl⟩
      rcases mem_append.1 hr with hr | hr
      · exact .inl (mem_append_left _ hr)
      · exact .inr (mem_assignPositions hr).2
    | some m => exact ⟨Nat.le_add_right _ _, fun _ => .inl, fun _ _ => .inl⟩
  | queue =>
    simp only [step] at h
    split at h
    · next records hc =>
      cases h
      refine ⟨le_rfl, fun r hr => .inl ?_, fun _ _ => .inl⟩
      simp only [flows, inFlight, hc, CommitPc.unqueued, mem_append] at hr ⊢
      tauto
    · cases h
  | publish =>
    simp only [step] at h
    split at h
    · next records hc =>
      cases h
      refine ⟨le_rfl, fun r hr => .inl ?_, fun _ _ => .inl⟩
      simpa only [flows, inFlight, hc, CommitPc.unqueued] using hr
    · cases h
  | flush =>
    cases h
    refine ⟨le_rfl, fun r hr => .inl ?_, fun _ _ => .inl⟩
    simpa [flows, inFlight, FlushPc.batch] using hr
  | hello id listOk =>
    simp only [step] at h
    split_ifs at h
    cases h
    unfold getOrCreateStream
    split <;> exact ⟨le_rfl, fun _ => .inl, fun _ _ => .inl⟩
  | gc delOk =>
    cases h
    exact ⟨le_rfl, fun _ => .inl, fun _ _ h => .inl (lookup_of_gc (s := s) h)⟩
  | saveCoverage =>
    cases h
    unfold saveCoverage
    split <;> exact ⟨le_rfl, fun _ => .inl, fun _ _ => .inl⟩
  | flushStream id | sealStream id putOk | upload id i putOk | discover id listOk =>
    cases h
    exact ⟨le_rfl, fun _ => .inl, fun _ _ => .inl⟩

/-- The loops of `NewServer` that look for a highest position find one. -/
theorem le_foldl_highest {α : Type} (f : α → Nat) (l : List α) (m : Nat) :
    m ≤ l.foldl (fun m a => if f a > m then f a else m) m ∧
      ∀ a ∈ l, f a ≤ l.foldl (fun m a => if f a > m then f a else m) m := by
  induction l generalizing m with
  | nil => simp
  | cons b l ih =>
    obtain ⟨hm, hl⟩ := ih (if f b > m then f b else m)
    refine ⟨?_, forall_mem_cons.2 ⟨?_, hl⟩⟩
    · refine le_trans ?_ hm
      split <;> omega
    · refine le_trans ?_ hm
      split <;> omega

theorem le_recovered {f : Server} {r : LogRecord} (hr : r ∈ f.log) : r.position ≤ f.recovered.lastPosition :=
  (le_foldl_highest LogRecord.position f.log _).2 r hr

theorem lastPos_le_recovered {f : Server} {path : SegmentPath} (hp : path ∈ f.store.segments.keys) :
    path.lastPos ≤ f.recovered.lastPosition :=
  le_trans ((le_foldl_highest SegmentPath.lastPos f.listSegments 0).2 path ((mem_insertionSort _).2 hp))
    (le_foldl_highest LogRecord.position f.log f.lastFlushedPos).1

/-- A restart begins with the records of the bucket and of the local log. -/
theorem newServer_flows {f : Server} {n : Nat} (h : f.newServer n = some s) :
    s.lastPosition = f.recovered.lastPosition ∧ (∀ r ∈ s.flows, r ∈ f.readRecords ∨ r ∈ f.log) ∧
    ∀ r ∈ f.localTail, r ∈ s.uploaded.flatten := by
  simp only [newServer, map_eq_some_iff] at h
  obtain ⟨s₁, h₁, rfl⟩ := h
  grind [flushAlone, deleteSegmentsThrough, recovered, flows, inFlight, CommitPc.unqueued,
    checkAggregatedSegmentGC, trackSegmentCoverage, markFlushed, putSegment, readRecords,
    localTail]

namespace Positions

variable {x x' : Positions}

/-- The records have positions that were assigned, those in the bucket are in `ever`, and the
next commit assigns positions above all that were stored. -/
structure Assigned (x : Positions) : Prop where
  flows : ∀ r ∈ x.server.flows, r.position ≤ x.server.lastPosition
  bucket : ∀ p records, x.server.store.segments.lookup p = some records → ∀ r ∈ records, r.position ∈ x.ever
  ever : ∀ p ∈ x.ever, p ≤ x.server.lastPosition

/-- What was stored before lies below `lastPosition`, and so does what is stored now. -/
theorem ever_step {last : Nat} (hever : ∀ p ∈ x.ever, p ≤ last) (hflows : ∀ r ∈ s.flows, r.position ≤ last) :
    ∀ p ∈ x.ever ++ s.uploaded.flatten.map LogRecord.position, p ≤ last := by
  intro p hp
  rcases mem_append.1 hp with hp | hp
  · exact hever p hp
  · obtain ⟨r, hr, rfl⟩ := mem_map.1 hp
    exact hflows r (mem_append_left _ (mem_append_left _ (mem_append_left _ hr)))

theorem Assigned.server {e : ServerEvent} (h : x.Assigned) (hs : x.step (.server e) = some x') : x'.Assigned := by
  obtain ⟨s, h₁, rfl⟩ := map_eq_some_iff.mp hs
  obtain ⟨hlast, hflows, hsegments⟩ := carries_step h₁
  have hflows : ∀ r ∈ s.flows, r.position ≤ s.lastPosition := fun r hr =>
    (hflows r hr).elim (fun hr => (h.flows r hr).trans hlast) id
  refine ⟨hflows, fun p records hl r hr => ?_, ever_step (fun p hp => (h.ever p hp).trans hlast) hflows⟩
  rcases hsegments p records hl with hold | hnew
  · exact mem_append_left _ (h.bucket p records hold r hr)
  · exact mem_append_right _ (mem_map_of_mem (hnew r hr))

/-- What the condition finds is what `NewServer` goes on from. -/
theorem FindsHighest.le {keep : Bool} {n : Nat} (hok : x.FindsHighest (.restart keep n)) :
    ∀ p ∈ x.ever, p ≤ (x.server.crash keep).recovered.lastPosition := by
  intro p hp
  rcases hok p hp with ⟨path, hpath, hle⟩ | ⟨rfl, r, hr, hle⟩
  · exact hle.trans (lastPos_le_recovered hpath)
  · exact hle.trans (le_recovered hr)

theorem Assigned.restart {keep : Bool} {n : Nat} (h : x.Assigned) (hok : x.FindsHighest (.restart keep n))
    (hs : x.step (.restart keep n) = some x') : x'.Assigned := by
  obtain ⟨s, h₁, rfl⟩ := map_eq_some_iff.mp hs
  obtain ⟨hlast, hflows, htail⟩ := newServer_flows h₁
  have hread (r) (hr : r ∈ (x.server.crash keep).readRecords) : r.position ∈ x.ever := by
    obtain ⟨p, -, hr⟩ := mem_flatMap.mp hr
    obtain hnone | ⟨records, hl⟩ := (x.server.store.segments.lookup p).eq_none_or_eq_some
    · simp [readSegment, crash, hnone] at hr
    · exact h.bucket p records hl r (by simpa [readSegment, crash, hl] using hr)
  have hflows (r) (hr : r ∈ s.flows) : r.position ≤ s.lastPosition := hlast ▸
    (hflows r hr).elim (fun hr => hok.le _ (hread r hr)) le_recovered
  refine ⟨hflows, fun p records hl r hr => ?_, ever_step (fun p hp => hlast ▸ hok.le p hp) hflows⟩
  obtain hl | rfl := (newServer_spec h₁).2.2 p records hl
  · exact mem_append_left _ (h.bucket p records hl r hr)
  · exact mem_append_right _ (mem_map_of_mem (htail r hr))

/-- A commit numbers on from `lastPosition` and stores nothing yet. -/
theorem Assigned.new {e : BufferEvent} (h : x.Assigned) (hs : x.step e = some x') : x'.New := by
  obtain ⟨s, h₁, rfl⟩ := map_eq_some_iff.mp hs
  match e with
  | .server (.commit items failed) =>
    intro q hq p hp
    obtain ⟨r, hr, rfl⟩ := mem_map.1 hq
    have hstored : s.uploaded = x.server.uploaded := by
      simp only [bufferStep, Server.step] at h₁
      split_ifs at h₁ with hcommit
      cases h₁
      cases failed <;> rfl
    refine lt_of_le_of_lt (ever_step h.ever h.flows p ?_) (mem_assignPositions hr).1
    rwa [← hstored]
  | .server (.flusher ..) | .server .queue | .server .publish | .server .flush | .server (.hello ..)
  | .server (.flushStream _) | .server (.sealStream ..) | .server (.upload ..) | .server (.discover ..)
  | .server (.gc _) | .server .saveCoverage | .restart .. => exact fun q hq => absurd hq not_mem_nil

theorem step_assigned (x : Positions) (e : BufferEvent) (x' : Positions) (h : x.Assigned ∧ x.New)
    (hok : x.FindsHighest e) (hs : x.step e = some x') : x'.Assigned ∧ x'.New := by
  refine ⟨?_, h.1.new hs⟩
  cases e with
  | server e => exact h.1.server hs
  | restart keep n => exact h.1.restart hok hs

/-- **Positions are not used again** if every restart finds, in the names of the segments that
are left or in the local log, a position as high as any that was stored: whatever commits,
flushes, seals, collections and restarts a run has, each position that a commit assigns lies
above all that a segment ever contained. -/
theorem positions_new (es : List BufferEvent) (hes : Allowed step FindsHighest { server := .empty } es) :
    Throughout step New { server := .empty } es :=
  Allowed.throughout (I := fun x => x.Assigned ∧ x.New) (P := New) (fun _ h => h.2) step_assigned
    ⟨⟨nofun, nofun, nofun⟩, nofun⟩ hes

/-- The segments are left: the directory is lost once and kept once. -/
theorem positions_new_kept :
    let es := commitAll [⟨7, 1, []⟩] ++ flushAll 0 ++ [.restart false 0] ++ commitAll [⟨8, 1, [5]⟩] ++
      [.restart true 0, .server (.commit [⟨8, 2, []⟩] none)]
    Allowed step FindsHighest { server := .empty } es ∧ Throughout step New { server := .empty } es :=
  ⟨by decide, positions_new _ (by decide)⟩

/-- The only segment is collected and the data directory is lost: the next commit has position 1
again. -/
theorem position_reused :
    let es := commitAll [⟨7, 1, []⟩] ++ flushAll 0 ++ [.server (.discover 7 true),
      .server (.sealStream 7 true), .server (.gc fun _ => true), .restart false 0,
      .server (.commit [⟨8, 1, [5]⟩] none)]
    ¬ Throughout step New { server := .empty } es ∧
      (exec step { server := .empty } es).map (fun x => (x.ever.dedup, x.assigned)) = some ([1], [1]) := by
  decide

end Positions

end InClusterStorage.Wal.Buffer
