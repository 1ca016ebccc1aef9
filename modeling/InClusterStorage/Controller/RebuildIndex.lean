import InClusterStorage.Controller.Recoverable

/- Whether a rebuilt index has the rows that are served.

   Recovery and `rebuildIndex` replay the same records over the same snapshot, one over
   the rows as they are, the other over rows of which it may have written the root. On rows
   both are one replay (`rowsReplay`), and a replay forgets the row it started with as soon
   as it meets a change of the key or a restore record (`replayed_touched`); else it keeps
   it (`replayed_untouched`). So all is left to the root.

   1. `rebuild_agrees_iff`: the rebuilt rows are those that are served if and only if the
      latest snapshot is not at position 0, or the stream after it has the root, or the
      root that is served is the one that `rebuildIndex` writes.
   2. `rebuild_clone_root`: the root of a clone is lost. -/
namespace InClusterStorage.Controller

open MetaVolume List
open Option (map_some map_eq_some_iff some_get)

/-! Replay of rows. -/

/-- What both replays do to the rows. -/
def rowsReplay (objects : Objects) : TxLog.Replay RowChange SnapshotPointer Rows where
  apply rows changes := applyRows (changes.map Prod.snd) rows
  mark rows _ ptr :=
    match ptr.restoredFrom with
    | none => some (rows, false)
    | some location => (objects.lookup location).map fun restored => (restored.rows, true)

/-- What both replays do to the position. -/
def positionReplay (objects : Objects) : TxLog.Replay RowChange SnapshotPointer Nat where
  apply position changes := changes.foldl (fun position change => max position change.1) position
  mark position seq ptr :=
    match ptr.restoredFrom with
    | none => some (position, false)
    | some location => (objects.lookup location).map fun _ => (seq, true)

section Replays

variable {objects : Objects} {τ : Type} {R : TxLog.Replay RowChange SnapshotPointer τ} {p : Index → τ}
  (hmark : ∀ idx seq ptr, R.mark (p idx) seq ptr = match ptr.restoredFrom with
    | none => some (p idx, false)
    | some location => (objects.lookup location).map fun obj => (p { obj with position := seq }, true))
include hmark

theorem loadReplay_part (happly : ∀ idx changes, p (idx.applyChanges changes) = R.apply (p idx) changes)
    (records : List StreamRecord) (r : Recovering) (held : TxLog.Reader RowChange) (seq : Nat) :
    R.run (p r.index, held) seq records =
      ((loadReplay objects).run (r, held) seq records).map fun result => (p result.1.index, result.2) := by
  apply TxLog.Replay.run_map fun r : Recovering => p r.index
  · exact fun r => happly r.index
  · intro r seq ptr
    simp only [hmark, loadReplay]
    cases ptr.restoredFrom with
    | none => rfl
    | some location =>
      simp only [rebuildRestoreSnapshot_eq, Option.map_map]
      rfl

theorem rebuildReplay_part (happly : ∀ idx changes, p (idx.applyBatch changes) = R.apply (p idx) changes)
    (records : List StreamRecord) (r : Rebuilding) (held : TxLog.Reader RowChange) (seq : Nat) :
    R.run (p r.index, held) seq records =
      ((rebuildReplay objects).run (r, held) seq records).map fun result => (p result.1.index, result.2) := by
  apply TxLog.Replay.run_map fun r : Rebuilding => p r.index
  · exact fun r => happly r.index
  · intro r seq ptr
    simp only [hmark, rebuildReplay]
    cases ptr.restoredFrom with
    | none => rfl
    | some location =>
      simp only [rebuildRestoreSnapshot_eq, Option.map_map]
      rfl

end Replays

/-- The record changes the row, or replaces all rows. -/
def touches (key : RowKey) : StreamRecord → Bool
  | .op _ c => c.key = key
  | .mark ptr => ptr.restoredFrom.isSome
  | _ => false

section Touched

variable {objects : Objects} {key : RowKey} {rows rows' out out' : Rows} {held held' : TxLog.Reader RowChange} {seq : Nat}

/-- A change of the key is held back. -/
abbrev Holds (key : RowKey) (held : TxLog.Reader RowChange) : Prop := held.Holds fun c : RowChange => c.key = key

theorem touches_eq_true {record : StreamRecord} (h : ∀ ptr, record ≠ .mark ptr) :
    touches key record = true ↔ record.Changes fun c : RowChange => c.key = key := by
  cases record with
  | op tx c => exact decide_eq_true_iff
  | mark ptr => exact absurd rfl (h ptr)
  | commit tx | other => simp [touches, TxLog.Record.Changes]

/-- A change of the key that is held back or read is committed or held back. -/
theorem holds_feed (held : TxLog.Reader RowChange) (seq : Nat) {record : StreamRecord} (h : ∀ ptr, record ≠ .mark ptr) :
    Holds key held ∨ touches key record = true ↔
      Holds key (held.feed seq record).1 ∨ ∃ c ∈ (held.feed seq record).2.map Prod.snd, c.key = key := by
  rw [touches_eq_true h, ← TxLog.Reader.feed_holds held seq record]
  simp only [mem_map, exists_exists_and_eq_and]

/-- One record over two maps of rows. -/
theorem rowsReplay_step (key : RowKey) {record : StreamRecord}
    (h : (rowsReplay objects).step (rows, held) seq record = some (out, held')) (rows' : Rows) :
    ∃ out', (rowsReplay objects).step (rows', held) seq record = some (out', held') ∧
      (rows.lookup key = rows'.lookup key ∨ Holds key held ∨ touches key record = true →
        out.lookup key = out'.lookup key ∨ Holds key held') := by
  by_cases hmark : ∃ ptr, record = .mark ptr
  · obtain ⟨ptr, rfl⟩ := hmark
    simp only [TxLog.Replay.step, rowsReplay] at h ⊢
    cases hfrom : ptr.restoredFrom with
    | none =>
      simp only [hfrom, map_some] at h ⊢
      cases h
      refine ⟨rows', rfl, ?_⟩
      rintro (hagree | hholds | htouches)
      · exact .inl hagree
      · exact .inr hholds
      · simp [touches, hfrom] at htouches
    | some location =>
      simp only [hfrom, Option.map_map] at h ⊢
      obtain ⟨restored, hrestored, heq⟩ := map_eq_some_iff.mp h
      cases heq
      exact ⟨restored.rows, by rw [hrestored]; rfl, fun _ => .inl rfl⟩
  · have hplain : ∀ ptr, record ≠ .mark ptr := fun ptr heq => hmark ⟨ptr, heq⟩
    rw [TxLog.Replay.step_feed _ _ hplain] at h ⊢
    cases h
    refine ⟨_, rfl, ?_⟩
    rw [holds_feed held seq hplain]
    rintro (hagree | hholds | ⟨c, hc, hkey⟩)
    · exact .inl (applyRows_congr _ hagree)
    · exact .inr hholds
    · rcases lookup_applyRows ((held.feed seq record).2.map Prod.snd) key with ⟨c', -, -, hrow⟩ | ⟨hnone, -⟩
      · exact .inl ((hrow rows).trans (hrow rows').symm)
      · exact absurd hkey (hnone c hc)

/-- A replay forgets the row it started with when it meets a change of the key or a
restore record. -/
theorem replayed_touched (key : RowKey) (records : List StreamRecord) :
    ∀ {rows rows' out : Rows} {held held' : TxLog.Reader RowChange} {seq : Nat},
      (rowsReplay objects).run (rows, held) seq records = some (out, held') →
      ∃ out', (rowsReplay objects).run (rows', held) seq records = some (out', held') ∧
        (rows.lookup key = rows'.lookup key ∨ Holds key held ∨ records.any (touches key) = true →
          out.lookup key = out'.lookup key ∨ Holds key held') := by
  induction records with
  | nil =>
    rintro rows rows' out held held' seq ⟨⟩
    refine ⟨rows', rfl, ?_⟩
    rintro (hagree | hholds | htouched)
    · exact .inl hagree
    · exact .inr hholds
    · simp at htouched
  | cons record records ih =>
    intro rows rows' out held held' seq h
    obtain ⟨⟨mid, heldMid⟩, hstep, hrest⟩ := Option.bind_eq_some_iff.mp h
    obtain ⟨mid', hstep', hmid⟩ := rowsReplay_step key hstep rows'
    obtain ⟨out', hrun', hout⟩ := @ih mid mid' out heldMid held' (seq + 1) hrest
    refine ⟨out', by rw [TxLog.Replay.run, hstep']; exact hrun', ?_⟩
    rw [any_cons, Bool.or_eq_true]
    rintro (hagree | hholds | htouches | htouched)
    · exact hout (or_assoc.mp (.inl (hmid (.inl hagree))))
    · exact hout (or_assoc.mp (.inl (hmid (.inr (.inl hholds)))))
    · exact hout (or_assoc.mp (.inl (hmid (.inr (.inr htouches)))))
    · exact hout (.inr (.inr htouched))

variable {records : List StreamRecord}

/-- The same for a replay that ends with nothing held back, and for all keys. -/
theorem replayed_agree (rows' : Rows)
    (h : (rowsReplay objects).run (rows, .empty) seq records = some (out, .empty)) :
    ∃ out', (rowsReplay objects).run (rows', .empty) seq records = some (out', .empty) ∧
      ∀ key, rows.lookup key = rows'.lookup key ∨ records.any (touches key) = true →
        out.lookup key = out'.lookup key := by
  have hkey := fun key => @replayed_touched objects key records rows rows' _ _ _ _ h
  obtain ⟨out', hrun, -⟩ := hkey (.inode rootIno)
  refine ⟨out', hrun, ?_⟩
  intro key hor
  obtain ⟨out'', hrun', hout⟩ := hkey key
  obtain rfl : out' = out'' := congrArg Prod.fst (Option.some.inj (hrun.symm.trans hrun'))
  exact (hout (hor.imp_right .inr)).resolve_right TxLog.Reader.not_holds_empty

/-- Else it keeps it. -/
theorem replayed_untouched (htouched : records.any (touches key) = false)
    (h : (rowsReplay objects).run (rows, .empty) seq records = some (out, held')) : out.lookup key = rows.lookup key := by
  refine TxLog.Replay.run_inv (I := fun r : Rows => r.lookup key = rows.lookup key) (p := fun c : RowChange => c.key = key)
    (q := fun ptr : SnapshotPointer => ptr.restoredFrom = none) ?_ ?_ records rfl TxLog.Reader.not_holds_empty ?_ h
  · intro r changes hr hnone
    rcases lookup_applyRows (changes.map Prod.snd) key with ⟨c, hc, hkey, -⟩ | ⟨-, hstays⟩
    · obtain ⟨change, hchange, rfl⟩ := mem_map.mp hc
      exact absurd hkey (hnone change hchange)
    · exact (hstays r).trans hr
  · intro r seq ptr result hr hfrom hmark
    simp only [rowsReplay, hfrom] at hmark
    cases hmark
    exact hr
  · intro record hrecord
    have hthis := any_eq_false.mp htouched record hrecord
    refine ⟨?_, ?_⟩
    · intro hchanges
      cases record with
      | op tx c => exact hthis (decide_eq_true hchanges)
      | _ => exact hchanges
    · rintro ptr rfl
      simpa [touches] using hthis

theorem replayed_rootDir (hobjects : ∀ p obj, objects.lookup p = some obj → RootDir obj.rows)
    (hops : ∀ tx c, .op tx c ∈ records → RootSafe [c]) (hroot : RootDir rows)
    (h : (rowsReplay objects).run (rows, .empty) seq records = some (out, held')) : RootDir out := by
  refine TxLog.Replay.run_inv (I := RootDir) (p := fun c : RowChange => ¬ RootSafe [c]) (q := fun _ => True) ?_ ?_ records
    hroot TxLog.Reader.not_holds_empty ?_ h
  · intro r changes hr hsafe
    apply RootSafe.rootDir _ hr
    intro c hc
    obtain ⟨change, hchange, rfl⟩ := mem_map.mp hc
    exact not_not.mp (hsafe change hchange) _ mem_cons_self
  · intro r seq ptr result hr _ hmark
    simp only [rowsReplay] at hmark
    split at hmark
    · cases hmark
      exact hr
    · obtain ⟨restored, hrestored, rfl⟩ := map_eq_some_iff.mp hmark
      exact hobjects _ _ hrestored
  · intro record hrecord
    refine ⟨?_, fun _ _ => trivial⟩
    intro hchanges
    cases record with
    | op tx c => exact hchanges (hops tx c hrecord)
    | _ => exact hchanges

end Touched

/-! The rebuilt rows. -/

namespace MetaVolume

/-- The rows of a rebuilt index are those that are served. -/
def RebuildAgrees (v : MetaVolume) (live : Index) : Prop :=
  ∃ rebuilt, v.rebuildIndex = some rebuilt ∧ ∀ key, rebuilt.rows.lookup key = live.rows.lookup key

/-- What is known of the root: it is in the snapshot or in the stream after it, or it is
as `rebuildIndex` writes it. -/
def RootKnown (v : MetaVolume) (live : Index) : Prop :=
  0 < v.snapPos ∨ (v.stream.drop v.snapPos).any (touches (.inode rootIno)) = true ∨
    live.rows.lookup (.inode rootIno) = some (.inode rebuiltRoot)

instance (v : MetaVolume) (live : Index) : Decidable (v.RootKnown live) := by
  unfold RootKnown
  infer_instance

theorem rebuildFrom_eq (v : MetaVolume) :
    v.rebuildFrom.index = if v.snapPos = 0 then
        v.recoverFrom.index.applyBatch [(0, { key := .inode rootIno, row := some (.inode rebuiltRoot) })]
      else v.recoverFrom.index := by
  have hindex : ((findLatestSnapshot v.objects).bind v.objects.lookup).getD {} = v.recoverFrom.index := by
    unfold recoverFrom
    cases findLatestSnapshot v.objects with
    | none | some location => rfl
  unfold rebuildFrom
  simp only [hindex]
  split <;> rfl

theorem position_rebuildFrom (v : MetaVolume) : v.rebuildFrom.index.position = v.recoverFrom.index.position := by
  rw [rebuildFrom_eq]
  split
  · exact Nat.max_zero _
  · rfl

theorem lookup_rebuildFrom (v : MetaVolume) (key : RowKey) :
    v.rebuildFrom.index.rows.lookup key =
      if v.snapPos = 0 ∧ key = .inode rootIno then some (.inode rebuiltRoot)
      else v.recoverFrom.index.rows.lookup key := by
  rw [rebuildFrom_eq]
  by_cases hpos : v.snapPos = 0
  · rw [if_pos hpos]
    simp only [Index.applyBatch, map_singleton, foldl_cons, foldl_nil, RowChange.lookup_apply, hpos, true_and]
  · rw [if_neg hpos, if_neg fun h => hpos h.1]

end MetaVolume

section Agreement

variable {v : MetaVolume} {live : Index}

theorem Traced.rebuildIndex {r : Recovering} (h : Traced v live r) :
    ∃ rebuilt, v.rebuildIndex = some rebuilt ∧ rebuilt.position = r.index.position ∧ rebuilt.maxIno = rebuilt.countMaxIno ∧
      (rowsReplay v.objects).run (v.rebuildFrom.index.rows, .empty) v.snapPos (v.stream.drop v.snapPos) =
        some (rebuilt.rows, .empty) ∧
      ∀ key, v.recoverFrom.index.rows.lookup key = v.rebuildFrom.index.rows.lookup key ∨
        (v.stream.drop v.snapPos).any (touches key) = true → r.index.rows.lookup key = rebuilt.rows.lookup key := by
  have hload := loadReplay_part (R := rowsReplay v.objects) (fun _ _ _ => rfl) Index.rows_applyChanges
    (v.stream.drop v.snapPos) v.recoverFrom .empty v.snapPos
  rw [h.run, map_some] at hload
  obtain ⟨out, hout, hagree⟩ := replayed_agree v.rebuildFrom.index.rows hload
  have hrebuild := rebuildReplay_part (R := rowsReplay v.objects) (p := Index.rows) (fun _ _ _ => rfl)
    (fun _ _ => rfl) (v.stream.drop v.snapPos) v.rebuildFrom .empty v.snapPos
  obtain ⟨result, hresult, heq⟩ := map_eq_some_iff.mp (hrebuild.symm.trans hout)
  obtain rfl : result.1.index.rows = out := congrArg Prod.fst heq
  refine ⟨rebuildStats result.1, ?_, ?_, rfl, hout, hagree⟩
  · unfold MetaVolume.rebuildIndex
    rw [hresult, map_some]
  · have hload := loadReplay_part (R := positionReplay v.objects) (p := Index.position) (fun _ _ _ => rfl)
      (fun _ _ => rfl) (v.stream.drop v.snapPos) v.recoverFrom .empty v.snapPos
    have hposition := rebuildReplay_part (R := positionReplay v.objects) (p := Index.position) (fun _ _ _ => rfl)
      (fun _ _ => rfl) (v.stream.drop v.snapPos) v.rebuildFrom .empty v.snapPos
    rw [v.position_rebuildFrom, hload, h.run, hresult] at hposition
    exact (congrArg Prod.fst (Option.some.inj hposition)).symm

theorem Durable.rebuildIndex (h : Durable v live) : ∃ rebuilt, v.rebuildIndex = some rebuilt ∧
    (∀ key, key ≠ .inode rootIno → rebuilt.rows.lookup key = live.rows.lookup key) ∧
    rebuilt.rows.lookup (.inode rootIno) =
      if 0 < v.snapPos ∨ (v.stream.drop v.snapPos).any (touches (.inode rootIno)) = true then
        live.rows.lookup (.inode rootIno) else some (.inode rebuiltRoot) := by
  obtain ⟨r, hr, hs⟩ := h
  obtain ⟨rebuilt, hrebuild, -, -, hrun, hagree⟩ := hr.rebuildIndex
  refine ⟨rebuilt, hrebuild, ?_, ?_⟩
  · intro key hkey
    have hstart : v.recoverFrom.index.rows.lookup key = v.rebuildFrom.index.rows.lookup key := by
      rw [v.lookup_rebuildFrom, if_neg fun h => hkey h.2]
    have hadd : (v.addRoot r.index).rows.lookup key = r.index.rows.lookup key := by
      rw [v.lookup_addRoot, if_neg fun h => hkey h.2]
    rw [← hagree key (.inl hstart), ← hadd]
    exact hs.rows key
  rw [← hs.rows, v.lookup_addRoot]
  by_cases hpos : v.snapPos = 0
  · by_cases htouched : (v.stream.drop v.snapPos).any (touches (.inode rootIno)) = true
    · -- the stream has the root
      have hroot : RootDir rebuilt.rows := by
        apply replayed_rootDir hs.objects (fun tx c hop => hs.ops tx c (mem_of_mem_drop hop)) _ hrun
        exact ⟨rebuiltRoot, by rw [v.lookup_rebuildFrom, if_pos ⟨hpos, rfl⟩], rfl⟩
      obtain ⟨row, hrow, -⟩ := hroot
      rw [if_pos (.inr htouched), hagree _ (.inr htouched), hrow, if_neg fun h => absurd h.1.2 (by simp)]
    · -- the root is as it was written
      rw [if_neg fun h => h.elim (fun h => absurd hpos (ne_of_gt h)) htouched,
        replayed_untouched (Bool.eq_false_iff.mpr htouched) hrun, v.lookup_rebuildFrom, if_pos ⟨hpos, rfl⟩]
  · -- the snapshot has the root
    have hlatest : findLatestSnapshot v.objects ≠ none := by
      intro hnone
      apply hpos
      unfold snapPos
      rw [hnone]
      rfl
    have hstart : v.recoverFrom.index.rows.lookup (.inode rootIno) = v.rebuildFrom.index.rows.lookup (.inode rootIno) := by
      rw [v.lookup_rebuildFrom, if_neg fun h => hpos h.1]
    rw [if_pos (.inl (Nat.pos_of_ne_zero hpos)), if_neg fun h => hlatest h.1.1]
    exact (hagree _ (.inl hstart)).symm

theorem Durable.rebuildAgrees_iff (h : Durable v live) : v.RebuildAgrees live ↔ v.RootKnown live := by
  obtain ⟨rebuilt, hrebuild, hrows, hroot⟩ := h.rebuildIndex
  unfold MetaVolume.RootKnown
  rw [← or_assoc]
  split at hroot
  case isTrue hknown =>
    refine iff_of_true ⟨rebuilt, hrebuild, ?_⟩ (.inl hknown)
    intro key
    by_cases hkey : key = .inode rootIno
    · rw [hkey, hroot]
    · exact hrows key hkey
  case isFalse hknown =>
    constructor
    · rintro ⟨_, heq, hall⟩
      obtain rfl := Option.some.inj (hrebuild.symm.trans heq)
      exact .inr ((hall _).symm.trans hroot)
    · intro hor
      have hlive := hor.resolve_left hknown
      refine ⟨rebuilt, hrebuild, ?_⟩
      intro key
      by_cases hkey : key = .inode rootIno
      · rw [hkey, hroot, hlive]
      · exact hrows key hkey

end Agreement

/-- **A rebuilt index has the rows that are served, if the root is known.** After every
run from a new volume or a clone whose steps meet `Careful`. -/
theorem rebuild_agrees_iff {v v' : MetaVolume} (h : v.New) {events : List MetaEvent}
    (hrun : Runs.Allowed step MetaVolume.Careful v events)
    (hexec : Runs.exec step v events = some v') {live : Index} (hlive : v'.view = some live) :
    v'.RebuildAgrees live ↔ v'.RootKnown live := by
  obtain ⟨idx, hidx⟩ := h.durable_run hrun hexec
  obtain rfl := hidx.view live hlive
  exact hidx.rebuildAgrees_iff

/-- A file is made, a snapshot is taken and restored, and another file is made. -/
theorem rebuild_agrees_iff_restored :
    let file : InodeRow := { isDir := false, mode := 0o644, nlink := 1 }
    let run : List MetaEvent := [.create file [], .createSnapshot [97] none, .restoreSnapshot [97] none, .create file []]
    ∃ v' live, Runs.exec step (create [118]) run = some v' ∧ v'.view = some live ∧ v'.RebuildAgrees live :=
  ⟨_, _, (some_get (by decide)).symm, (some_get (by decide)).symm,
    (rebuild_agrees_iff (.create [118]) (by decide) (some_get (by decide)).symm
      (some_get (by decide)).symm).mpr (by decide)⟩

/-- The root of a clone has three links; that of its rebuilt index has two. -/
theorem rebuild_clone_root :
    let root : InodeRow := { isDir := true, mode := 0o700, nlink := 3 }
    let source : Index := { rows := (∅ : Rows).insert (.inode rootIno) (.inode root) }
    let v := initFromSnapshot [118] source
    v.New ∧ v.rebuildIndex.map (fun idx => idx.rows.lookup (.inode rootIno)) = some (some (.inode rebuiltRoot)) ∧
      ¬ ∀ live ∈ v.view, v.RebuildAgrees live := by
  intro root source v
  have hrebuilt : v.rebuildIndex.map (fun idx => idx.rows.lookup (.inode rootIno)) = some (some (.inode rebuiltRoot)) := by
    decide
  refine ⟨.clone [118] ⟨root, by decide, rfl⟩, hrebuilt, fun h => ?_⟩
  obtain ⟨rebuilt, heq, hall⟩ := h _ rfl
  rw [heq, map_some, hall] at hrebuilt
  exact absurd hrebuilt (by decide)

end InClusterStorage.Controller
