import InClusterStorage.Controller.Recovery

/- How the stream, the snapshots and the index of a volume hang together.

   `Traced v idx r` says that the index is at a position after which the stream changes
   nothing, that no snapshot is after it, and that the replay of the stream over the latest
   snapshot ends with `r`, with nothing held back. Every operation keeps this, and each
   lemma says what becomes of the index and of the replay: a transaction changes both
   (`Traced.commitTx`), a snapshot makes the replay start at the index (`Traced.publish`),
   a restore gives both the index of an older snapshot (`Traced.restored`), and a load
   makes the replay the index (`Traced.load`). What the rows and the numbers in them are is
   left to the modules above. -/
namespace InClusterStorage.Controller

open Table MetaVolume Option TxLog
open List hiding mem_keys map_map

/-! Rows under changes. -/

theorem RowChange.lookup_apply (c : RowChange) (rows : Rows) (key : RowKey) :
    (c.apply rows).lookup key = if key = c.key then c.row else rows.lookup key := by
  unfold RowChange.apply
  cases hrow : c.row with
  | some row => rw [lookup_insert]
  | none => rw [lookup_erase]

def applyRows (changes : List RowChange) (rows : Rows) : Rows := changes.foldl (fun rows c => c.apply rows) rows

theorem Index.rows_foldl (changes : List RowChange) :
    ∀ idx : Index, (changes.foldl Index.applyChange idx).rows = applyRows changes idx.rows := by
  induction changes with
  | nil => intro idx; rfl
  | cons c changes ih => intro idx; exact ih (idx.applyChange c)

theorem Index.rows_applyChanges (idx : Index) (changes : List (Nat × RowChange)) :
    (idx.applyChanges changes).rows = applyRows (changes.map Prod.snd) idx.rows :=
  Index.rows_foldl _ idx

theorem lookup_applyRows (changes : List RowChange) (key : RowKey) :
    (∃ c ∈ changes, c.key = key ∧ ∀ rows, (applyRows changes rows).lookup key = c.row) ∨
      (∀ c ∈ changes, c.key ≠ key) ∧ ∀ rows, (applyRows changes rows).lookup key = rows.lookup key := by
  induction changes with
  | nil => exact .inr ⟨fun c hc => absurd hc not_mem_nil, fun rows => rfl⟩
  | cons c changes ih =>
    rcases ih with ⟨c', hc', hkey, hrow⟩ | ⟨hnone, hstays⟩
    · exact .inl ⟨c', mem_cons_of_mem _ hc', hkey, fun rows => hrow _⟩
    by_cases hkey : key = c.key
    · refine .inl ⟨c, mem_cons_self, hkey.symm, fun rows => ?_⟩
      calc (applyRows changes (c.apply rows)).lookup key
          = (c.apply rows).lookup key := hstays _
        _ = c.row := by rw [c.lookup_apply, if_pos hkey]
    · refine .inr ⟨forall_mem_cons.mpr ⟨fun heq => hkey heq.symm, hnone⟩, fun rows => ?_⟩
      calc (applyRows changes (c.apply rows)).lookup key
          = (c.apply rows).lookup key := hstays _
        _ = rows.lookup key := by rw [c.lookup_apply, if_neg hkey]

theorem applyRows_congr (changes : List RowChange) {rows rows' : Rows} {key : RowKey}
    (h : rows.lookup key = rows'.lookup key) :
    (applyRows changes rows).lookup key = (applyRows changes rows').lookup key := by
  rcases lookup_applyRows changes key with ⟨c, _, _, hrow⟩ | ⟨-, hstays⟩
  · rw [hrow, hrow]
  · rw [hstays, hstays, h]

theorem foldl_max_le {α : Type} {f : α → Nat} {l : List α} {bound : Nat} :
    ∀ {start : Nat}, (∀ a ∈ l, f a ≤ bound) → start ≤ bound → l.foldl (fun m a => max m (f a)) start ≤ bound := by
  induction l with
  | nil => intro start _ h; exact h
  | cons a l ih =>
    intro start hall h
    obtain ⟨ha, hrest⟩ := forall_mem_cons.mp hall
    exact ih hrest (Nat.max_le.mpr ⟨h, ha⟩)

theorem le_foldl_max {α : Type} {f : α → Nat} {l : List α} :
    ∀ {start : Nat}, start ≤ l.foldl (fun m a => max m (f a)) start ∧
      ∀ a ∈ l, f a ≤ l.foldl (fun m a => max m (f a)) start := by
  induction l with
  | nil => intro start; exact ⟨le_rfl, fun a ha => absurd ha not_mem_nil⟩
  | cons a l ih =>
    intro start
    obtain ⟨hle, hall⟩ := @ih (max start (f a))
    refine ⟨le_trans (le_max_left _ _) hle, ?_⟩
    exact forall_mem_cons.mpr ⟨le_trans (le_max_right _ _) hle, hall⟩

/-! The rest of the stream. -/

/-- The record changes no row, as long as no changes are held back. -/
def idle : StreamRecord → Bool
  | .op _ _ => false
  | .mark ptr => ptr.restoredFrom.isNone
  | _ => true

/-- All that the stream has to say on rows is said up to the position. -/
structure Tail (stream : List StreamRecord) (position : Nat) : Prop where
  le : position ≤ stream.length
  idle : ∀ record ∈ stream.drop position, idle record = true

theorem Tail.append {stream : List StreamRecord} {position : Nat} (h : Tail stream position) {record : StreamRecord}
    (hidle : InClusterStorage.Controller.idle record = true) : Tail (stream ++ [record]) position := by
  refine ⟨by rw [length_append]; exact Nat.le_add_right_of_le h.le, ?_⟩
  rw [drop_append_of_le_length h.le]
  exact forall_mem_append.mpr ⟨h.idle, forall_mem_singleton.mpr hidle⟩

theorem Tail.length (stream : List StreamRecord) : Tail stream stream.length :=
  ⟨le_rfl, fun r hr => by simp at hr⟩

/-- A transaction is said when its commit record, or its last change, is. -/
theorem Tail.block {stream : List StreamRecord} {position : Nat} (h : Tail stream position) (tx : Nat)
    {changes : List RowChange} {numbered : List (Nat × RowChange)} (hmap : numbered.map Prod.snd = changes)
    (hbound : ∀ change ∈ numbered, change.1 ≤ stream.length + changes.length + 1)
    (hlast : numbered ≠ [] → ∃ change ∈ numbered, stream.length + changes.length ≤ change.1) :
    Tail (stream ++ TxLog.block tx changes) (numbered.foldl (fun position change => max position change.1) position) := by
  have hlength : (stream ++ TxLog.block tx changes).length = stream.length + changes.length + 1 := by
    rw [length_append, length_block]
    omega
  constructor
  case le =>
    rw [hlength]
    exact foldl_max_le hbound (le_trans h.le (by omega))
  case idle =>
    intro record hrecord
    by_cases hnil : numbered = []
    · -- the transaction is its commit record
      subst hnil
      obtain rfl : changes = [] := hmap.symm
      have hcommit : Tail (stream ++ [.commit tx]) position := h.append rfl
      exact hcommit.idle record hrecord
    · -- nothing is left but the commit record
      obtain ⟨change, hchange, hle⟩ := hlast hnil
      have hposition : stream.length + changes.length ≤
          numbered.foldl (fun position change => max position change.1) position :=
        le_trans hle (le_foldl_max.2 change hchange)
      have hcommit := drop_subset_drop_left _ hposition hrecord
      rw [TxLog.block, ← append_assoc,
        drop_append_of_le_length (by rw [length_append, length_map]),
        drop_eq_nil_of_le (by rw [length_append, length_map])] at hcommit
      rw [mem_singleton.mp hcommit]
      rfl

/-! Replay. -/

/-- The record restores the snapshot at the location. -/
def MetaVolume.restores (location : Nat) : StreamRecord → Bool
  | .mark ptr => ptr.restoredFrom = some location
  | _ => false

section Replay

variable {objects : Objects} {r : Recovering}

theorem loadReplay_nil (r : Recovering) : (loadReplay objects).apply r [] = r := rfl

theorem run_idle (records : List StreamRecord) :
    ∀ (r : Recovering) (seq : Nat), (∀ record ∈ records, idle record = true) →
      ∃ r', (loadReplay objects).run (r, .empty) seq records = some (r', .empty) ∧ r'.index = r.index := by
  induction records with
  | nil => intro r seq _; exact ⟨r, rfl, rfl⟩
  | cons record records ih =>
    intro r seq hidle
    obtain ⟨hhead, hrest⟩ := forall_mem_cons.mp hidle
    rw [TxLog.Replay.run]
    cases record with
    | op tx c => simp [idle] at hhead
    | commit tx | other => exact ih _ _ hrest
    | mark ptr =>
      have hplain : ptr.restoredFrom = none := isNone_iff_eq_none.mp hhead
      simp only [TxLog.Replay.step, loadReplay, hplain, map_some, bind_some]
      exact ih { r with snapshotPointers := r.snapshotPointers ++ [ptr] } _ hrest

/-- The pointer of a snapshot record. -/
def plainMark : StreamRecord → Option SnapshotPointer
  | .mark ptr => if ptr.restoredFrom = none then some ptr else none
  | _ => none

theorem run_pointers (records : List StreamRecord) :
    ∀ {s s' : Recovering × Reader RowChange} {seq : Nat}, (loadReplay objects).run s seq records = some s' →
      s'.1.snapshotPointers = s.1.snapshotPointers ++ records.filterMap plainMark := by
  induction records with
  | nil =>
    rintro s s' seq ⟨⟩
    exact (append_nil _).symm
  | cons record records ih =>
    intro s s' seq h
    obtain ⟨mid, hstep, hrun⟩ := bind_eq_some_iff.mp h
    have hmid : mid.1.snapshotPointers = s.1.snapshotPointers ++ (plainMark record).toList := by
      cases record with
      | mark ptr =>
        simp only [TxLog.Replay.step, loadReplay] at hstep
        cases hfrom : ptr.restoredFrom with
        | none =>
          simp only [hfrom, map_some] at hstep
          cases hstep
          simp [plainMark, hfrom]
        | some location =>
          simp only [hfrom, map_map] at hstep
          obtain ⟨restored, -, rfl⟩ := map_eq_some_iff.mp hstep
          simp [plainMark, hfrom]
      | _ => cases hstep; exact (append_nil _).symm
    rw [ih hrun, hmid, append_assoc]
    cases hplain : plainMark record with
    | none => rw [filterMap_cons_none hplain]; rfl
    | some ptr => rw [filterMap_cons_some hplain]; rfl

theorem rebuildRestoreSnapshot_eq (objects : Objects) (oldIdx : Option Index) (location seq highest : Nat) :
    rebuildRestoreSnapshot objects oldIdx location seq highest =
      (objects.lookup location).map fun restored => { restored with position := seq } := by
  unfold rebuildRestoreSnapshot
  cases objects.lookup location with
  | none => rfl
  | some restored =>
    rfl

/-- A replay reads only the objects that restore records name. -/
theorem run_erase (location : Nat) (records : List StreamRecord) :
    ∀ {s : Recovering × Reader RowChange} {seq : Nat},
      records.any (restores location) = false →
      (loadReplay (objects.erase location)).run s seq records = (loadReplay objects).run s seq records := by
  induction records with
  | nil => intro s seq _; rfl
  | cons record records ih =>
    intro s seq hnone
    rw [any_cons, Bool.or_eq_false_iff] at hnone
    have hstep : (loadReplay (objects.erase location)).step s (seq + 1) record =
        (loadReplay objects).step s (seq + 1) record := by
      cases record with
      | op tx c | commit tx | other => rfl
      | mark ptr =>
        simp only [TxLog.Replay.step, loadReplay]
        cases hfrom : ptr.restoredFrom with
        | none => rfl
        | some loc =>
          have hne : loc ≠ location := by
            intro heq
            have := hnone.1
            simp [restores, hfrom, heq] at this
          simp only [rebuildRestoreSnapshot_eq, lookup_erase, if_neg hne]
    rw [TxLog.Replay.run, TxLog.Replay.run, hstep]
    congr 1
    funext s'
    exact ih hnone.2

end Replay

/-! The latest snapshot. -/

section Objects

variable {objects : Objects} {p : Nat} {v : MetaVolume} {idx : Index}

theorem findLatestSnapshot_eq_some :
    findLatestSnapshot objects = some p ↔ p ∈ objects.keys ∧ ∀ q ∈ objects.keys, q ≤ p := by
  exact max?_eq_some_iff

theorem findLatestSnapshot_ne_none {obj : Index} (h : objects.lookup p = some obj) : findLatestSnapshot objects ≠ none := by
  intro hnone
  have hkeys := max?_eq_none_iff.mp hnone
  have hmem : p ∈ objects.keys := by
    rw [mem_keys, h]
    rfl
  rw [hkeys] at hmem
  exact absurd hmem not_mem_nil

theorem findLatestSnapshot_insert {obj : Index} (hle : ∀ q ∈ objects.keys, q ≤ p) :
    findLatestSnapshot (objects.insert p obj) = some p := by
  rw [findLatestSnapshot_eq_some]
  refine ⟨by rw [mem_keys, AList.lookup_insert]; rfl, ?_⟩
  intro q hq
  rw [mem_keys, lookup_insert] at hq
  by_cases heq : q = p
  · exact le_of_eq heq
  · rw [if_neg heq] at hq
    exact hle q (mem_keys.mpr hq)

theorem findLatestSnapshot_erase {location : Nat} (h : findLatestSnapshot objects = some p) (hne : p ≠ location) :
    findLatestSnapshot (objects.erase location) = some p := by
  rw [findLatestSnapshot_eq_some] at h ⊢
  refine ⟨by rw [mem_keys, lookup_erase, if_neg hne, ← mem_keys]; exact h.1, ?_⟩
  intro q hq
  rw [mem_keys, lookup_erase] at hq
  split at hq
  · exact absurd hq (by decide)
  · exact h.2 q (mem_keys.mpr hq)

theorem MetaVolume.addRoot_of_latest (v : MetaVolume) (h : findLatestSnapshot v.objects = some p) (idx : Index) :
    v.addRoot idx = idx := by
  unfold addRoot
  rw [if_neg]
  rw [h]
  exact fun hadd => absurd hadd.1 (by simp)

theorem MetaVolume.addRoot_of_lookup {obj : Index} (h : v.objects.lookup p = some obj) (idx : Index) :
    v.addRoot idx = idx := by
  obtain ⟨q, hq⟩ := ne_none_iff_exists'.mp (findLatestSnapshot_ne_none h)
  exact v.addRoot_of_latest hq idx

theorem MetaVolume.lookup_addRoot (v : MetaVolume) (idx : Index) (key : RowKey) :
    (v.addRoot idx).rows.lookup key =
      if (findLatestSnapshot v.objects = none ∧ idx.rows.lookup (.inode rootIno) = none) ∧ key = .inode rootIno then
        some (.inode loadedRoot) else idx.rows.lookup key := by
  unfold addRoot
  by_cases hadd : findLatestSnapshot v.objects = none ∧ idx.rows.lookup (.inode rootIno) = none
  · rw [if_pos hadd, Index.rows_applyChanges, map_singleton, applyRows, foldl_cons, foldl_nil,
      RowChange.lookup_apply]
    by_cases hkey : key = .inode rootIno
    · rw [if_pos hkey, if_pos ⟨hadd, hkey⟩]
    · rw [if_neg hkey, if_neg fun h => hkey h.2]
  · rw [if_neg hadd, if_neg fun h => hadd h.1]

theorem MetaVolume.le_snapPos {obj : Index} (hobj : v.objects.lookup p = some obj) : p ≤ v.snapPos := by
  obtain ⟨q, hq⟩ := ne_none_iff_exists'.mp (findLatestSnapshot_ne_none hobj)
  have hmem : p ∈ v.objects.keys := by
    rw [mem_keys, hobj]
    rfl
  unfold snapPos
  rw [hq]
  exact (findLatestSnapshot_eq_some.mp hq).2 p hmem

theorem MetaVolume.position_addRoot (v : MetaVolume) (idx : Index) : (v.addRoot idx).position = idx.position := by
  unfold addRoot
  split
  · exact Nat.max_zero _
  · rfl

end Objects

/-- The replay of the stream over the latest snapshot. -/
def MetaVolume.replayed (v : MetaVolume) : Option (Recovering × Reader RowChange) :=
  (loadReplay v.objects).run (v.recoverFrom, .empty) v.snapPos (v.stream.drop v.snapPos)

/-- The changes of a transaction with the number of its commit record. -/
def MetaVolume.numberedTx (changes : List RowChange) (v : MetaVolume) : List (Nat × RowChange) :=
  changes.map fun c => ((v.stream ++ TxLog.block (v.nextTxID + 1) changes).length, c)

/-- What a transaction makes of the index. -/
def MetaVolume.afterTx (changes : List RowChange) (idx : Index) (v : MetaVolume) : Index :=
  idx.applyChanges (v.numberedTx changes)

theorem MetaVolume.map_snd_numberedTx (v : MetaVolume) (changes : List RowChange) :
    (v.numberedTx changes).map Prod.snd = changes := by
  unfold numberedTx
  rw [List.map_map]
  exact map_id changes

/-- A snapshot as it is restored at the end of the stream. -/
abbrev MetaVolume.restoredIndex (v : MetaVolume) (obj : Index) : Index := { obj with position := v.stream.length + 1 }

structure Traced (v : MetaVolume) (idx : Index) (r : Recovering) : Prop where
  /-- there is no view after a restore that has failed half way -/
  view : ∀ live ∈ v.view, live = idx
  tail : Tail v.stream idx.position
  replayed : v.replayed = some (r, .empty)
  replayTail : Tail v.stream r.index.position
  start : v.snapPos ≤ r.index.position
  objects : ∀ p obj, v.objects.lookup p = some obj → p ≤ idx.position ∧ obj.position = p
  pointers : ∀ ptr ∈ v.snapshotPointers, ptr.position = ptr.location
  marks : ∀ ptr, .mark ptr ∈ v.stream → ptr.position = ptr.location

namespace Traced

variable {v v' : MetaVolume} {idx : Index} {r : Recovering}

section

variable (h : Traced v idx r)
include h

theorem run : (loadReplay v.objects).run (v.recoverFrom, .empty) v.snapPos (v.stream.drop v.snapPos) = some (r, .empty) :=
  h.replayed

theorem recover : v.recover = some { r with index := v.addRoot r.index } := by
  unfold MetaVolume.recover
  rw [h.run]
  rfl

theorem snapPos_le : v.snapPos ≤ v.stream.length := le_trans h.start h.replayTail.le

theorem of_eq (hobjects : v'.objects = v.objects) (hstream : v'.stream = v.stream)
    (hview : ∀ live ∈ v'.view, live = idx) (hpointers : ∀ ptr ∈ v'.snapshotPointers, ptr.position = ptr.location) :
    Traced v' idx r := by
  have hfrom : v'.recoverFrom = v.recoverFrom := by unfold recoverFrom; rw [hobjects]
  have hpos : v'.snapPos = v.snapPos := by unfold snapPos; rw [hobjects]
  constructor
  case view => exact hview
  case tail => rw [hstream]; exact h.tail
  case replayed =>
    unfold MetaVolume.replayed
    rw [hfrom, hpos, hobjects, hstream]
    exact h.run
  case replayTail => rw [hstream]; exact h.replayTail
  case start => rw [hpos]; exact h.start
  case objects => rw [hobjects]; exact h.objects
  case pointers => exact hpointers
  case marks => rw [hstream]; exact h.marks

theorem replayed_append (v' : MetaVolume) (hobjects : v'.objects = v.objects)
    {records : List StreamRecord} (hstream : v'.stream = v.stream ++ records) :
    v'.replayed = (loadReplay v.objects).run (r, .empty) v.stream.length records := by
  have hfrom : v'.recoverFrom = v.recoverFrom := by unfold recoverFrom; rw [hobjects]
  have hpos : v'.snapPos = v.snapPos := by unfold snapPos; rw [hobjects]
  unfold MetaVolume.replayed
  rw [hfrom, hpos, hobjects, hstream, drop_append_of_le_length h.snapPos_le, TxLog.Replay.run_append, h.run,
    bind_some, length_drop, Nat.add_sub_cancel' h.snapPos_le]

theorem commitTx (changes : List RowChange) :
    Traced (v.commitTx changes idx) (v.afterTx changes idx)
      ((loadReplay v.objects).apply r (TxLog.numbered v.stream.length changes)) := by
  have hlength : (v.stream ++ block (v.nextTxID + 1) changes).length = v.stream.length + changes.length + 1 := by
    rw [length_append, length_block]
    omega
  constructor
  case view => exact fun live hlive => (some.inj hlive).symm
  case tail =>
    apply h.tail.block _ (map_snd_numberedTx v changes)
    · intro change hchange
      obtain ⟨c, -, rfl⟩ := mem_map.mp hchange
      exact le_of_eq hlength
    · intro hne
      obtain ⟨change, hchange⟩ := exists_mem_of_ne_nil _ hne
      obtain ⟨c, -, rfl⟩ := mem_map.mp hchange
      refine ⟨_, hchange, ?_⟩
      rw [hlength]
      exact Nat.le_succ _
  case replayed =>
    rw [h.replayed_append (v.commitTx changes idx) rfl rfl]
    exact TxLog.Replay.run_block loadReplay_nil (Nat.succ_ne_zero _) changes _
  case replayTail =>
    apply h.replayTail.block _ (numbered_map_snd _ _)
    · intro change hchange
      have := (le_of_mem_numbered changes hchange).2
      omega
    · intro hne
      have hchanges : changes ≠ [] := by
        intro hnil
        rw [hnil] at hne
        exact hne rfl
      obtain ⟨c, hc⟩ := numbered_last changes hchanges v.stream.length
      exact ⟨_, hc, le_rfl⟩
  case start => exact le_trans h.start le_foldl_max.1
  case objects =>
    intro p obj hobj
    obtain ⟨hle, hposition⟩ := h.objects p obj hobj
    exact ⟨le_trans hle le_foldl_max.1, hposition⟩
  case pointers => exact h.pointers
  case marks =>
    intro ptr hptr
    rcases mem_append.mp hptr with hold | hnew
    · exact h.marks ptr hold
    · simp [block] at hnew

theorem appendIdle {record : StreamRecord} (hidle : idle record = true)
    (hmark : ∀ ptr, record = .mark ptr → ptr.position = ptr.location) :
    ∃ r', Traced { v with stream := v.stream ++ [record] } idx r' ∧ r'.index = r.index := by
  obtain ⟨r', hrun, hindex⟩ := run_idle [record] r v.stream.length (forall_mem_singleton.mpr hidle)
  refine ⟨r', ⟨h.view, h.tail.append hidle, ?_, ?_, ?_, h.objects, h.pointers, ?_⟩, hindex⟩
  · exact (h.replayed_append { v with stream := v.stream ++ [record] } rfl rfl).trans hrun
  · rw [hindex]
    exact h.replayTail.append hidle
  · rw [hindex]
    exact h.start
  · intro ptr hptr
    rcases mem_append.mp hptr with hold | hnew
    · exact h.marks ptr hold
    · exact hmark ptr (mem_singleton.mp hnew).symm

end

/-- A snapshot after all that the stream has to say is all that recovery needs. -/
theorem of_latest (hlatest : findLatestSnapshot v.objects = some idx.position)
    (hobj : v.objects.lookup idx.position = some idx) (htail : Tail v.stream idx.position) :
    ∃ r, v.replayed = some (r, .empty) ∧ r.index = idx ∧ v.snapPos = idx.position := by
  have hpos : v.snapPos = idx.position := by unfold snapPos; rw [hlatest]; rfl
  have hfrom : v.recoverFrom.index = idx := by
    unfold recoverFrom
    rw [hlatest]
    simp only [hobj, getD_some]
  obtain ⟨r, hrun, hindex⟩ :=
    run_idle (v.stream.drop v.snapPos) v.recoverFrom v.snapPos (by rw [hpos]; exact htail.idle)
  exact ⟨r, hrun, hindex.trans hfrom, hpos⟩

section

variable (h : Traced v idx r)
include h

theorem keys_le : ∀ q ∈ v.objects.keys, q ≤ idx.position := by
  intro q hq
  obtain ⟨obj, hobj⟩ := isSome_iff_exists.mp (mem_keys.mp hq)
  exact (h.objects q obj hobj).1

theorem snapPos_le_position : v.snapPos ≤ idx.position := by
  unfold snapPos
  cases hlatest : findLatestSnapshot v.objects with
  | none => exact Nat.zero_le _
  | some p => exact h.keys_le p (findLatestSnapshot_eq_some.mp hlatest).1

theorem snapPos_publish : snapPos { v with objects := v.objects.insert idx.position idx } = idx.position := by
  unfold snapPos
  rw [findLatestSnapshot_insert h.keys_le]
  rfl

theorem publish : ∃ r', Traced { v with objects := v.objects.insert idx.position idx } idx r' ∧ r'.index = idx := by
  set v' : MetaVolume := { v with objects := v.objects.insert idx.position idx }
  obtain ⟨r', hrun, hindex, hpos⟩ :=
    of_latest (v := v') (findLatestSnapshot_insert h.keys_le) (AList.lookup_insert _) h.tail
  refine ⟨r', ⟨h.view, h.tail, hrun, ?_, ?_, ?_, h.pointers, h.marks⟩, hindex⟩
  · rw [hindex]
    exact h.tail
  · rw [hindex, hpos]
  · exact forall_insert ⟨le_rfl, rfl⟩ h.objects

theorem erase {p location : Nat} (hlatest : findLatestSnapshot v.objects = some p)
    (hne : p ≠ location) (hnone : (v.stream.drop v.snapPos).any (restores location) = false) :
    Traced { v with objects := v.objects.erase location } idx r := by
  have hlatest' := findLatestSnapshot_erase hlatest hne
  set v' : MetaVolume := { v with objects := v.objects.erase location } with hv'
  have hpos : v'.snapPos = v.snapPos := by unfold snapPos; rw [hlatest, hlatest']
  have hfrom : v'.recoverFrom = v.recoverFrom := by
    unfold recoverFrom
    rw [hlatest, hlatest']
    simp only [hv', lookup_erase, if_neg hne]
  refine { h with replayed := ?_, start := by rw [hpos]; exact h.start, objects := ?_ }
  · unfold MetaVolume.replayed
    rw [hfrom, hpos, run_erase location _ hnone]
    exact h.run
  · exact fun q obj hobj => h.objects q obj (lookup_of_erase hobj)

/-- A restore record is appended: the replay ends with the index that it names. The view
is that of the same index, or there is none. -/
theorem restored {ptr : SnapshotPointer} {location : Nat} {obj : Index} {view : Option Index}
    (hfrom : ptr.restoredFrom = some location) (hobj : v.objects.lookup location = some obj)
    (hptr : ptr.position = ptr.location)
    (hview : ∀ live ∈ view, live = v.restoredIndex obj) :
    ∃ r', Traced { v with stream := v.stream ++ [.mark ptr], view } (v.restoredIndex obj) r' ∧
      r'.index = v.restoredIndex obj := by
  set v' : MetaVolume := { v with stream := v.stream ++ [.mark ptr], view } with hv'
  have htail : Tail v'.stream (v.stream.length + 1) := by
    have hlength : v'.stream.length = v.stream.length + 1 := length_append
    rw [← hlength]
    exact Tail.length _
  have hrun : (loadReplay v.objects).run (r, .empty) v.stream.length [.mark ptr] =
      some ({ r with
        index := v.restoredIndex obj
        replayStartPos := ptr.position
        replaySnapshotLocation := some location }, .empty) := by
    simp only [TxLog.Replay.run, TxLog.Replay.step, loadReplay, hfrom, rebuildRestoreSnapshot_eq, hobj, map_some,
      bind_some, if_pos]
  refine ⟨_, ⟨hview, htail, (h.replayed_append v' rfl rfl).trans hrun, htail, ?_, ?_, h.pointers, ?_⟩, rfl⟩
  · exact Nat.le_succ_of_le h.snapPos_le
  · intro q obj' hobj'
    obtain ⟨hle, hposition⟩ := h.objects q obj' hobj'
    exact ⟨Nat.le_succ_of_le (le_trans hle h.tail.le), hposition⟩
  · intro p hp
    rcases mem_append.mp hp with hold | hnew
    · exact h.marks p hold
    · cases mem_singleton.mp hnew
      exact hptr

theorem replayed_pointers : r.snapshotPointers = (v.stream.drop v.snapPos).filterMap plainMark := by
  have hstart : v.recoverFrom.snapshotPointers = [] := by
    unfold recoverFrom
    split <;> rfl
  rw [run_pointers _ h.run, hstart, nil_append]

end

theorem mem_of_plainMark {ptr : SnapshotPointer} {records : List StreamRecord}
    (h : ptr ∈ records.filterMap plainMark) : .mark ptr ∈ records ∧ ptr.restoredFrom = none := by
  obtain ⟨record, hrecord, hplain⟩ := mem_filterMap.mp h
  unfold plainMark at hplain
  split at hplain
  case h_1 ptr' =>
    split at hplain
    case isTrue hfrom =>
      cases hplain
      exact ⟨hrecord, hfrom⟩
    case isFalse => simp at hplain
  case h_2 => simp at hplain

theorem load (h : Traced v idx r) : Traced (v.load { r with index := v.addRoot r.index }) (v.addRoot r.index) r where
  __ := h
  view live hlive := (some.inj hlive).symm
  tail := by rw [v.position_addRoot]; exact h.replayTail
  objects p obj hobj := by
    have hle : p ≤ v.snapPos := le_snapPos hobj
    rw [v.position_addRoot]
    exact ⟨le_trans hle h.start, (h.objects p obj hobj).2⟩
  pointers ptr hptr := by
    have hplain : ptr ∈ (v.stream.drop v.snapPos).filterMap plainMark := by
      rwa [← h.replayed_pointers]
    exact h.marks ptr (mem_of_mem_drop (mem_of_plainMark hplain).1)

end Traced

/-! Snapshots by name. -/

section Snapshots

variable {v : MetaVolume} {idx : Index} {r : Recovering}

theorem MetaVolume.pointerTo_location (v : MetaVolume) (location : Nat) : (v.pointerTo location).location = location := by
  unfold pointerTo
  cases hlast : (v.snapshotPointers.filter fun ptr => ptr.restoredFrom = none ∧ ptr.location = location).getLast? with
  | none => rfl
  | some ptr =>
    have hmem := mem_of_getLast? hlast
    exact (of_decide_eq_true (mem_filter.mp hmem).2).2

theorem Traced.pointerTo_position (h : Traced v idx r) (location : Nat) : (v.pointerTo location).position = location := by
  unfold pointerTo
  cases hlast : (v.snapshotPointers.filter fun ptr => ptr.restoredFrom = none ∧ ptr.location = location).getLast? with
  | none => rfl
  | some ptr =>
    have hmem := mem_filter.mp (mem_of_getLast? hlast)
    exact (h.pointers ptr hmem.1).trans (of_decide_eq_true hmem.2).2

theorem MetaVolume.mem_listSnapshots {ptr : SnapshotPointer} :
    ptr ∈ v.listSnapshots ↔ ∃ location ∈ v.objects.keys, v.pointerTo location = ptr := by
  unfold listSnapshots
  rw [mem_insertionSort, List.mem_map]

theorem MetaVolume.mem_of_findSnapshot {name : Name} {target : SnapshotPointer} (h : v.findSnapshot name = some target) :
    target ∈ v.listSnapshots :=
  mem_of_find?_eq_some h

theorem Traced.findSnapshot (h : Traced v idx r) {name : Name} {target : SnapshotPointer}
    (hfind : v.findSnapshot name = some target) :
    target.position = target.location ∧ ∃ obj, v.objects.lookup target.location = some obj := by
  obtain ⟨location, hmem, rfl⟩ := mem_listSnapshots.mp (mem_of_findSnapshot hfind)
  rw [h.pointerTo_position, v.pointerTo_location]
  exact ⟨rfl, isSome_iff_exists.mp (mem_keys.mp hmem)⟩

theorem MetaVolume.listSnapshots_pairwise (v : MetaVolume) :
    v.listSnapshots.Pairwise fun p q => p.position ≤ q.position :=
  have : Std.Total fun p q : SnapshotPointer => p.position ≤ q.position := ⟨fun _ _ => le_total _ _⟩
  have : IsTrans SnapshotPointer fun p q => p.position ≤ q.position := ⟨fun _ _ _ => le_trans⟩
  pairwise_insertionSort _ _

theorem Traced.latest_of_getLast (h : Traced v idx r) {last : SnapshotPointer}
    (hlast : v.listSnapshots.getLast? = some last) : findLatestSnapshot v.objects = some last.location := by
  obtain ⟨location, hmem, rfl⟩ := mem_listSnapshots.mp (mem_of_getLast? hlast)
  rw [v.pointerTo_location, findLatestSnapshot_eq_some]
  refine ⟨hmem, ?_⟩
  intro q hq
  obtain ⟨before, hsplit⟩ := getLast?_eq_some_iff.mp hlast
  have hq' := mem_listSnapshots.mpr ⟨q, hq, rfl⟩
  rw [hsplit] at hq'
  rcases mem_append.mp hq' with hbefore | hthis
  · have hsorted := v.listSnapshots_pairwise
    rw [hsplit, pairwise_append] at hsorted
    have hle := hsorted.2.2 _ hbefore _ mem_cons_self
    rwa [h.pointerTo_position, h.pointerTo_position] at hle
  · have heq := congrArg SnapshotPointer.location (mem_singleton.mp hthis)
    rw [v.pointerTo_location, v.pointerTo_location] at heq
    exact le_of_eq heq

theorem Traced.newest_location (h : Traced v idx r) {name : Name} {target : SnapshotPointer} {p : Nat}
    (hfind : v.findSnapshot name = some target) (hp : findLatestSnapshot v.objects = some p) :
    v.listSnapshots.getLast?.map (·.location) = some p := by
  have hne : v.listSnapshots ≠ [] := ne_nil_of_mem (mem_of_findSnapshot hfind)
  have hlast := h.latest_of_getLast (getLast?_eq_some_getLast hne)
  rw [getLast?_eq_some_getLast hne, map_some, ← hlast, hp]

/-- A delete leaves the volume, or removes an object that is not the latest. -/
theorem Traced.deleteSnapshot_cases (h : Traced v idx r) (fault : Bool) (name : Name) :
    (v.deleteSnapshot fault name).1 = v ∨
      ∃ target p, v.findSnapshot name = some target ∧ findLatestSnapshot v.objects = some p ∧ p ≠ target.location ∧
        v.deleteSnapshot fault name = ({ v with
          objects := v.objects.erase target.location
          snapshotPointers := v.snapshotPointers.filter fun ptr => ptr.location ≠ target.location }, .ok ()) := by
  unfold deleteSnapshot
  cases hfind : v.findSnapshot name with
  | none => exact .inl rfl
  | some target =>
    simp only
    obtain ⟨-, obj, hobj⟩ := h.findSnapshot hfind
    obtain ⟨p, hp⟩ := ne_none_iff_exists'.mp (findLatestSnapshot_ne_none hobj)
    rw [h.newest_location hfind hp]
    split
    · exact .inl rfl
    case isFalse hnewest =>
      split
      · exact .inl rfl
      cases fault with
      | true => exact .inl rfl
      | false => exact .inr ⟨target, p, rfl, hp, fun heq => hnewest (congrArg some heq.symm), rfl⟩

end Snapshots

theorem MetaVolume.initNextInode_le (v : MetaVolume) (highest : Nat) :
    v.nextInode ≤ (v.initNextInode highest).nextInode := by
  unfold initNextInode
  simp only
  split
  · exact le_trans (le_max_left _ _) (le_max_left _ _)
  · exact le_max_left _ _

/-- A restore that succeeds: the index is the one restored, and published at once. -/
theorem Traced.restoreSnapshot {v : MetaVolume} {idx : Index} {r : Recovering} (h : Traced v idx r) {name : Name}
    {target : SnapshotPointer} (hfind : v.findSnapshot name = some target) :
    ∃ obj r', v.objects.lookup target.location = some obj ∧
      Traced (v.restoreSnapshot none name).1 (v.restoredIndex obj) r' ∧ r'.index = v.restoredIndex obj ∧
      (v.restoreSnapshot none name).1.objects = v.objects.insert (v.stream.length + 1) (v.restoredIndex obj) ∧
      v.nextInode ≤ (v.restoreSnapshot none name).1.nextInode := by
  obtain ⟨hposition, obj, hobj⟩ := h.findSnapshot hfind
  set ptr := restorePointer name target with hptr
  set restored := v.restoredIndex obj with hrestored
  have hkept : Traced { v with staged := ∅ } idx r := h.of_eq rfl rfl h.view h.pointers
  have hview (live) (hlive : live ∈ some restored) : live = restored := (some.inj hlive).symm
  obtain ⟨r₁, hserved, -⟩ := hkept.restored (show ptr.restoredFrom = some target.location from rfl) hobj hposition hview
  obtain ⟨r', hpublished, hindex⟩ := hserved.publish
  have hlength : (v.stream ++ [TxLog.Record.mark ptr]).length = v.stream.length + 1 := length_append
  have hfind' : MetaVolume.findSnapshot name { v with staged := ∅ } = some target := hfind
  have hlookup : v.objects.lookup ptr.location = some obj := hobj
  unfold MetaVolume.restoreSnapshot
  simp only [reduceCtorEq, if_false, hfind', restoreIndex, rebuildRestoreSnapshot_eq, ← hptr, hlookup, map_some, hlength]
  refine ⟨obj, r', hobj, hpublished.of_eq rfl rfl hview ?_, hindex, rfl, ?_⟩
  · refine forall_mem_append.mpr ⟨h.pointers, ?_⟩
    exact forall_mem_cons.mpr ⟨hposition, forall_mem_singleton.mpr rfl⟩
  · set v' : MetaVolume :=
      { v with staged := ∅, stream := v.stream ++ [.mark ptr], view := some restored, liveMaxIno := obj.maxIno }
    exact v'.initNextInode_le _

/-! New volumes. -/

theorem Traced.create (streamID : Name) :
    Traced (create streamID) (Index.applyChanges {} [(0, { key := .inode rootIno, row := some (.inode loadedRoot) })])
      (create streamID).recoverFrom where
  view live hlive := (some.inj hlive).symm
  tail := Tail.length []
  replayed := rfl
  replayTail := Tail.length []
  start := le_rfl
  objects p obj hobj := absurd hobj (by simp [MetaVolume.create])
  pointers ptr hptr := absurd hptr not_mem_nil
  marks ptr hptr := absurd hptr not_mem_nil

theorem MetaVolume.initFromSnapshot_objects (streamID : Name) {source obj : Index} {p : Nat}
    (h : (initFromSnapshot streamID source).objects.lookup p = some obj) : p = 0 ∧ obj = { source with position := 0 } :=
  forall_insert (p := fun p obj => p = 0 ∧ obj = _) ⟨rfl, rfl⟩ (fun p obj hobj => absurd hobj (by simp)) p obj h

theorem Traced.initFromSnapshot (streamID : Name) (source : Index) :
    ∃ r, Traced (initFromSnapshot streamID source) { source with position := 0 } r ∧
      r.index = { source with position := 0 } := by
  set v := MetaVolume.initFromSnapshot streamID source
  have htail : Tail v.stream 0 := by
    apply (Tail.length []).append
    rfl
  have hobj : v.objects.lookup 0 = some { source with position := 0 } := AList.lookup_insert _
  obtain ⟨r, hrun, hindex, hpos⟩ := Traced.of_latest
    (show findLatestSnapshot v.objects = some ({ source with position := 0 } : Index).position from rfl)
    hobj htail
  refine ⟨r, ⟨fun live hlive => (some.inj hlive).symm, htail, hrun, ?_, ?_, ?_, ?_, ?_⟩, hindex⟩
  · rwa [hindex]
  · rw [hindex, hpos]
  · intro p obj hobj
    obtain ⟨rfl, rfl⟩ := initFromSnapshot_objects streamID hobj
    exact ⟨le_rfl, rfl⟩
  · exact forall_mem_singleton.mpr rfl
  · intro ptr hptr
    cases mem_singleton.mp hptr
    rfl

end InClusterStorage.Controller
