import InClusterStorage.Lib.Runs
import InClusterStorage.Controller.MetaReplay

/- What recovery finds is what the volume serves.

   The machine runs metadata transactions, snapshots, restores of which any step may fail,
   deletes of snapshots, and restarts. `Durable` adds to `Traced` that the replay has the
   rows of the index, up to a root that recovery adds itself.

   1. `recoverable_always`: in a run whose steps meet `Careful`, recovery succeeds in every
      state and yields the rows that are served.
   2. `delete_unrecoverable`: a restore whose last step fails leaves a restore record in
      the stream, and the snapshot that it names can be deleted. -/
namespace InClusterStorage.Controller

open MetaVolume List Option Runs

/-! The machine. -/

/-- A change that a transaction can make: it never creates an inode row, keeps the kind of
one, and never deletes the root. -/
def RowChange.allowed (rows : Rows) (c : RowChange) : Bool :=
  match c.key, c.row with
  | .inode ino, some (.inode row) =>
    match rows.lookup (.inode ino) with
    | some (.inode old) => decide (row.isDir = old.isDir)
    | _ => false
  | .inode _, some (.value _) => false
  | .inode ino, none => decide (ino ≠ rootIno)
  | _, _ => true

inductive MetaEvent where
  /-- a transaction on rows that exist -/
  | commit (changes : List RowChange)
  /-- a transaction with a new inode -/
  | create (row : InodeRow) (rest : List RowChange)
  /-- a header or a type definition -/
  | append
  | createSnapshot (name : Name) (fault : Option CreateStep)
  | deleteSnapshot (name : Name) (fault : Bool)
  | restoreSnapshot (name : Name) (fault : Option RestoreStep)
  | restart
  deriving DecidableEq, Repr

namespace MetaVolume

/-- `allocInode` and the transaction that inserts the row. -/
def createInode (row : InodeRow) (rest : List RowChange) (idx : Index) (v : MetaVolume) : MetaVolume :=
  { v with nextInode := v.nextInode + 8 }.commitTx ({ key := .inode v.nextInode, row := some (.inode row) } :: rest) idx

def step (v : MetaVolume) : MetaEvent → Option MetaVolume
  | .commit changes => v.view.bind fun idx =>
    if changes.all (·.allowed idx.rows) then some (v.commitTx changes idx) else none
  | .create row rest => v.view.bind fun idx =>
    if rest.all (·.allowed idx.rows) then some (v.createInode row rest idx) else none
  | .append => some { v with stream := v.stream ++ [.other] }
  | .createSnapshot name fault => (v.createSnapshot fault name).map Prod.fst
  | .deleteSnapshot name fault => some (v.deleteSnapshot fault name).1
  | .restoreSnapshot name fault => some (v.restoreSnapshot fault name).1
  | .restart => v.restart

theorem of_checked {v v' : MetaVolume} {idx : Index} {changes : List RowChange} {commit : Index → MetaVolume}
    (hview : ∀ live ∈ v.view, live = idx)
    (h : (v.view.bind fun idx => if changes.all (·.allowed idx.rows) then some (commit idx) else none) = some v') :
    changes.all (·.allowed idx.rows) = true ∧ commit idx = v' := by
  obtain ⟨live, hlive, h⟩ := bind_eq_some_iff.mp h
  obtain rfl := hview live hlive
  split at h
  case isTrue hall => exact ⟨hall, some.inj h⟩
  case isFalse => simp at h

/-- Recovery succeeds and yields the rows that are served. -/
def Recoverable (v : MetaVolume) : Prop :=
  ∃ r, v.recover = some r ∧ ∀ idx ∈ v.view, ∀ key, r.index.rows.lookup key = idx.rows.lookup key

/-- No restore goes back to the old index after its record is appended, and no snapshot is
deleted that a restore record after the latest snapshot names. -/
def Careful (v : MetaVolume) : MetaEvent → Prop
  | .restoreSnapshot _ fault => fault ≠ some .flush
  | .deleteSnapshot name fault => (v.deleteSnapshot fault name).2.isOk → ∀ target ∈ v.findSnapshot name,
      (v.stream.drop v.snapPos).any (restores target.location) = false
  | _ => True

instance (v : MetaVolume) (e : MetaEvent) : Decidable (v.Careful e) := by
  unfold Careful
  split <;> infer_instance

end MetaVolume

/-! The root. -/

/-- The root is a directory. -/
def RootDir (rows : Rows) : Prop := ∃ row, rows.lookup (.inode rootIno) = some (.inode row) ∧ row.isDir = true

section Root

variable {v : MetaVolume} {idx : Index} {changes : List RowChange}

/-- The root may only be replaced by a directory. -/
def RootSafe (changes : List RowChange) : Prop :=
  ∀ c ∈ changes, c.key = .inode rootIno → ∃ row, c.row = some (.inode row) ∧ row.isDir = true

theorem RootSafe.rootDir (h : RootSafe changes) {rows : Rows} (hroot : RootDir rows) :
    RootDir (applyRows changes rows) := by
  rcases lookup_applyRows changes (.inode rootIno) with ⟨c, hc, hkey, hrow⟩ | ⟨-, hstays⟩
  · obtain ⟨row, heq, hdir⟩ := h c hc hkey
    exact ⟨row, by rw [hrow, heq], hdir⟩
  · obtain ⟨row, heq, hdir⟩ := hroot
    exact ⟨row, by rw [hstays, heq], hdir⟩

theorem RootSafe.of_allowed {rows : Rows} (hroot : RootDir rows) (hall : changes.all (·.allowed rows) = true) :
    RootSafe changes := by
  obtain ⟨old, hold, hdir⟩ := hroot
  intro c hc hkey
  have hallowed := all_eq_true.mp hall c hc
  unfold RowChange.allowed at hallowed
  rw [hkey] at hallowed
  cases hrow : c.row with
  | none => rw [hrow] at hallowed; simp at hallowed
  | some row =>
    cases row with
    | value bytes => rw [hrow] at hallowed; simp at hallowed
    | inode row =>
      simp only [hrow, hold, decide_eq_true_eq] at hallowed
      exact ⟨row, rfl, hallowed.trans hdir⟩

theorem RootSafe.lookup_addRoot (h : RootSafe changes) {replayed : Index} {numbered numbered' : List (Nat × RowChange)}
    (hmap : numbered.map Prod.snd = changes) (hmap' : numbered'.map Prod.snd = changes)
    (hrows : ∀ key, (v.addRoot replayed).rows.lookup key = idx.rows.lookup key) (key : RowKey) :
    (v.addRoot (replayed.applyChanges numbered)).rows.lookup key = (idx.applyChanges numbered').rows.lookup key := by
  have hkey := hrows key
  rw [MetaVolume.lookup_addRoot] at hkey ⊢
  rw [Index.rows_applyChanges, Index.rows_applyChanges, hmap, hmap']
  rcases lookup_applyRows changes (.inode rootIno) with ⟨c, hc, hroot, hrow⟩ | ⟨-, hstays⟩
  · obtain ⟨row, heq, -⟩ := h c hc hroot
    rw [if_neg (by rw [hrow, heq]; exact fun hadd => absurd hadd.1.2 (by simp))]
    by_cases hthis : key = .inode rootIno
    · rw [hthis, hrow, hrow]
    · rw [if_neg fun hadd => hthis hadd.2] at hkey
      exact applyRows_congr changes hkey
  · rw [hstays]
    split at hkey
    case isTrue hadd => rw [if_pos hadd, hkey, hadd.2, hstays]
    case isFalse hadd => rw [if_neg hadd]; exact applyRows_congr changes hkey

theorem MetaVolume.mem_orphanChanges {rows : Rows} {c : RowChange} (hc : c ∈ orphanChanges rows) :
    c.row = none ∧ ∀ ino, c.key = .inode ino → ∃ row, rows.lookup c.key = some (.inode row) ∧ row.isDir = false := by
  obtain ⟨ino, hino, hc⟩ := mem_flatMap.mp hc
  rcases mem_cons.mp hc with rfl | hchunk
  · obtain ⟨key, -, horphan⟩ := mem_filterMap.mp hino
    split at horphan
    case h_1 i row hrow =>
      split_ifs at horphan with hfile
      cases horphan
      exact ⟨rfl, fun _ _ => ⟨row, hrow, hfile.1⟩⟩
    case h_2 => simp at horphan
  · obtain ⟨key, -, hdelete⟩ := mem_filterMap.mp hchunk
    split at hdelete
    · split_ifs at hdelete
      cases hdelete
      exact ⟨rfl, nofun⟩
    · simp at hdelete

theorem RootSafe.orphanChanges {rows : Rows} (hroot : RootDir rows) : RootSafe (orphanChanges rows) := by
  obtain ⟨old, hold, hdir⟩ := hroot
  intro c hc hkey
  obtain ⟨row, hrow, hfile⟩ := (mem_orphanChanges hc).2 _ hkey
  rw [hkey, hold] at hrow
  cases hrow
  simp [hdir] at hfile

end Root

/-! The invariant. -/

/-- The replay has the rows of the index; the root is a directory in all of them. -/
structure Served (v : MetaVolume) (idx : Index) (r : Recovering) : Prop where
  rows : ∀ key, (v.addRoot r.index).rows.lookup key = idx.rows.lookup key
  root : RootDir idx.rows
  objects : ∀ p obj, v.objects.lookup p = some obj → RootDir obj.rows
  ops : ∀ tx c, .op tx c ∈ v.stream → RootSafe [c]
  next : rootIno < v.nextInode

def Durable (v : MetaVolume) (idx : Index) : Prop := ∃ r, Traced v idx r ∧ Served v idx r

namespace Durable

variable {v v' : MetaVolume} {idx : Index} {changes : List RowChange}

section

variable (h : Durable v idx)
include h

theorem view : ∀ live ∈ v.view, live = idx := by
  obtain ⟨r, hr, -⟩ := h
  exact hr.view

theorem root : RootDir idx.rows := by
  obtain ⟨r, -, hs⟩ := h
  exact hs.root

theorem pointers : ∀ ptr ∈ v.snapshotPointers, ptr.position = ptr.location := by
  obtain ⟨r, hr, -⟩ := h
  exact hr.pointers

theorem of_eq (hobjects : v'.objects = v.objects) (hstream : v'.stream = v.stream)
    (hview : ∀ live ∈ v'.view, live = idx) (hpointers : ∀ ptr ∈ v'.snapshotPointers, ptr.position = ptr.location)
    (hnext : v.nextInode ≤ v'.nextInode) : Durable v' idx := by
  obtain ⟨r, hr, hs⟩ := h
  have hroot : v'.addRoot = v.addRoot := by unfold addRoot; rw [hobjects]
  refine ⟨r, hr.of_eq hobjects hstream hview hpointers, ?_, hs.root, ?_, ?_, lt_of_lt_of_le hs.next hnext⟩
  · rw [hroot]
    exact hs.rows
  · rw [hobjects]
    exact hs.objects
  · rw [hstream]
    exact hs.ops

theorem commitTx (hsafe : RootSafe changes) : Durable (v.commitTx changes idx) (v.afterTx changes idx) := by
  obtain ⟨r, hr, hs⟩ := h
  refine ⟨_, hr.commitTx changes, ?_, ?_, hs.objects, ?_, hs.next⟩
  · exact hsafe.lookup_addRoot (TxLog.numbered_map_snd _ _) (v.map_snd_numberedTx changes) hs.rows
  · unfold afterTx
    rw [Index.rows_applyChanges, v.map_snd_numberedTx]
    exact hsafe.rootDir hs.root
  · intro tx c hop
    rcases mem_append.mp hop with hold | hnew
    · exact hs.ops tx c hold
    · have hc : c ∈ changes ∧ v.nextTxID + 1 = tx := by simpa [TxLog.block] using hnew
      exact forall_mem_singleton.mpr (hsafe c hc.1)

theorem appendIdle {record : StreamRecord} (hidle : idle record = true)
    (hmark : ∀ ptr, record = .mark ptr → ptr.position = ptr.location) :
    Durable { v with stream := v.stream ++ [record] } idx := by
  obtain ⟨r, hr, hs⟩ := h
  obtain ⟨r', hr', hindex⟩ := hr.appendIdle hidle hmark
  refine ⟨r', hr', ?_, hs.root, hs.objects, ?_, hs.next⟩
  · rw [hindex]
    exact hs.rows
  · intro tx c hop
    rcases mem_append.mp hop with hold | hnew
    · exact hs.ops tx c hold
    · rw [← mem_singleton.mp hnew] at hidle
      simp [idle] at hidle

theorem publish : Durable { v with objects := v.objects.insert idx.position idx } idx := by
  obtain ⟨r, hr, hs⟩ := h
  obtain ⟨r', hr', hindex⟩ := hr.publish
  refine ⟨r', hr', ?_, hs.root, ?_, hs.ops, hs.next⟩
  · intro key
    have hsome : (v.objects.insert idx.position idx).lookup idx.position = some idx := AList.lookup_insert _
    rw [addRoot_of_lookup hsome, hindex]
  · exact Table.forall_insert hs.root hs.objects

theorem erase {p location : Nat} (hlatest : findLatestSnapshot v.objects = some p)
    (hne : p ≠ location) (hnone : (v.stream.drop v.snapPos).any (restores location) = false) :
    Durable { v with objects := v.objects.erase location } idx := by
  obtain ⟨r, hr, hs⟩ := h
  refine ⟨r, hr.erase hlatest hne hnone, ?_, hs.root, ?_, hs.ops, hs.next⟩
  · intro key
    rw [addRoot_of_latest _ (findLatestSnapshot_erase hlatest hne), ← hs.rows, v.addRoot_of_latest hlatest]
  · exact fun q obj hobj => hs.objects q obj (Table.lookup_of_erase hobj)

theorem restored {ptr : SnapshotPointer} {location : Nat} {obj : Index} {view : Option Index}
    (hfrom : ptr.restoredFrom = some location) (hobj : v.objects.lookup location = some obj)
    (hptr : ptr.position = ptr.location)
    (hview : ∀ live ∈ view, live = v.restoredIndex obj) :
    Durable { v with stream := v.stream ++ [.mark ptr], view } (v.restoredIndex obj) := by
  obtain ⟨r, hr, hs⟩ := h
  obtain ⟨r', hr', hindex⟩ := hr.restored hfrom hobj hptr hview
  refine ⟨r', hr', ?_, hs.objects location obj hobj, hs.objects, ?_, hs.next⟩
  · intro key
    show (v.addRoot r'.index).rows.lookup key = _
    rw [addRoot_of_lookup hobj, hindex]
  · intro tx c hop
    rcases mem_append.mp hop with hold | hnew
    · exact hs.ops tx c hold
    · exact absurd (mem_singleton.mp hnew) (by simp)

end

/-! The operations. -/

section

variable (h : Durable v idx)
include h

theorem deleteSnapshot {name : Name} {fault : Bool}
    (hcareful : v.Careful (.deleteSnapshot name fault)) : Durable (v.deleteSnapshot fault name).1 idx := by
  obtain ⟨r, hr, -⟩ := id h
  rcases hr.deleteSnapshot_cases fault name with heq | ⟨target, p, hfind, hp, hne, heq⟩
  · rwa [heq]
  · have herased := h.erase hp hne (hcareful (by rw [heq]; rfl) target hfind)
    rw [heq]
    exact herased.of_eq rfl rfl h.view (fun ptr hptr => h.pointers ptr (mem_filter.mp hptr).1) le_rfl

theorem restoreIndex {ptr : SnapshotPointer} {obj : Index}
    {fault : Option RestoreStep} (hfault : fault ≠ some .flush) (hfrom : ptr.restoredFrom = some ptr.location)
    (hobj : v.objects.lookup ptr.location = some obj) (hptr : ptr.position = ptr.location) (maxIno : Nat) :
    ∃ idx', Durable (restoreIndex fault ptr maxIno { v with stream := v.stream ++ [.mark ptr] }).1 idx' := by
  have hlength : (v.stream ++ [TxLog.Record.mark ptr]).length = v.stream.length + 1 := length_append
  have hunserved : Durable { v with stream := v.stream ++ [.mark ptr], view := none } _ :=
    h.restored hfrom hobj hptr fun live hlive => absurd hlive (by simp)
  have hserved : Durable { v with stream := v.stream ++ [.mark ptr], view := some _ } _ :=
    h.restored hfrom hobj hptr fun live hlive => (some.inj hlive).symm
  set restored := v.restoredIndex obj with hrestored
  unfold MetaVolume.restoreIndex
  simp only [if_neg hfault, rebuildRestoreSnapshot_eq, hlength, hobj, map_some]
  have hnext (v' : MetaVolume) (heq : v'.nextInode = v.nextInode) : v.nextInode ≤ (v'.initNextInode maxIno).nextInode :=
    heq ▸ v'.initNextInode_le maxIno
  by_cases hindex : fault = some .restoreIndex
  · simp only [if_pos hindex]
    split
    · exact ⟨_, hunserved⟩
    · exact ⟨_, hunserved⟩
  split_ifs
  · exact ⟨_, hunserved⟩
  · exact ⟨_, hunserved⟩
  · exact ⟨_, hserved.of_eq rfl rfl hserved.view h.pointers (hnext _ rfl)⟩
  refine ⟨restored, hserved.publish.of_eq rfl rfl hserved.view ?_ (hnext _ rfl)⟩
  refine forall_mem_append.mpr ⟨h.pointers, ?_⟩
  exact forall_mem_cons.mpr ⟨hptr, forall_mem_singleton.mpr rfl⟩

theorem restoreSnapshot {name : Name} {fault : Option RestoreStep}
    (hfault : fault ≠ some .flush) : ∃ idx', Durable (v.restoreSnapshot fault name).1 idx' := by
  have hkept : Durable { v with staged := ∅ } idx := h.of_eq rfl rfl h.view h.pointers le_rfl
  unfold MetaVolume.restoreSnapshot
  simp only
  split
  · exact ⟨idx, hkept⟩
  split
  · exact ⟨idx, hkept⟩
  cases hfind : findSnapshot name { v with staged := ∅ } with
  | none => exact ⟨idx, hkept⟩
  | some target =>
    simp only
    split
    · exact ⟨idx, hkept⟩
    split
    · exact ⟨idx, hkept⟩
    obtain ⟨r, hr, -⟩ := id hkept
    obtain ⟨hposition, obj, hobj⟩ := hr.findSnapshot hfind
    set ptr := restorePointer name target
    exact hkept.restoreIndex hfault (show ptr.restoredFrom = some ptr.location from rfl) hobj hposition _

theorem createSnapshot {name : Name} {fault : Option CreateStep} :
    ∀ result ∈ v.createSnapshot fault name, Durable result.1 idx := by
  intro result hresult
  obtain ⟨live, hview, hresult⟩ := map_eq_some_iff.mp hresult
  obtain rfl := h.view live hview
  simp only at hresult
  split at hresult
  · rwa [← hresult]
  split at hresult
  · rw [← hresult]
    exact h.publish
  rw [← hresult]
  set ptr : SnapshotPointer :=
    { position := live.position, location := live.position, name := if name = [] then snapshotBase live.position else name }
  have happended : Durable { v with objects := _, stream := v.stream ++ [.mark ptr] } live :=
    h.publish.appendIdle rfl fun p hp => by cases hp; rfl
  refine happended.of_eq rfl rfl h.view ?_ le_rfl
  exact forall_mem_append.mpr ⟨h.pointers, forall_mem_singleton.mpr rfl⟩

theorem initNextInode (highest : Nat) : Durable (v.initNextInode highest) idx :=
  h.of_eq rfl rfl h.view h.pointers (v.initNextInode_le highest)

theorem cleanOrphanInodes : ∃ idx', Durable (v.cleanOrphanInodes idx) idx' := by
  unfold MetaVolume.cleanOrphanInodes
  split
  · exact ⟨idx, h⟩
  · exact ⟨_, h.commitTx (RootSafe.orphanChanges h.root)⟩

theorem restart : ∀ v' ∈ v.restart, ∃ idx', Durable v' idx' := by
  intro v' hv'
  obtain ⟨r, hr, hs⟩ := h
  have hloaded : Durable (v.load { r with index := v.addRoot r.index }) (v.addRoot r.index) := by
    refine ⟨r, hr.load, fun key => rfl, ?_, hs.objects, hs.ops, show rootIno < 8 by decide⟩
    unfold RootDir
    rw [hs.rows]
    exact hs.root
  unfold MetaVolume.restart at hv'
  rw [hr.recover, map_some] at hv'
  rw [← some.inj hv']
  obtain ⟨idx', hclean⟩ := hloaded.cleanOrphanInodes
  exact ⟨idx', hclean.initNextInode _⟩

theorem createInode (row : InodeRow) {rest : List RowChange}
    (hall : rest.all (·.allowed idx.rows) = true) : ∃ idx', Durable (v.createInode row rest idx) idx' := by
  have hnext : Durable { v with nextInode := v.nextInode + 8 } idx :=
    h.of_eq rfl rfl h.view h.pointers (Nat.le_add_right _ _)
  refine ⟨_, hnext.commitTx ?_⟩
  obtain ⟨r, -, hs⟩ := h
  intro c hc hkey
  rcases mem_cons.mp hc with rfl | hmem
  · exact absurd (RowKey.inode.inj hkey) (ne_of_gt hs.next)
  · exact RootSafe.of_allowed hs.root hall c hmem hkey

theorem step {e : MetaEvent} (hcareful : v.Careful e) (hstep : v.step e = some v') : ∃ idx', Durable v' idx' := by
  cases e with
  | commit changes =>
    obtain ⟨hall, rfl⟩ := of_checked h.view hstep
    exact ⟨_, h.commitTx (RootSafe.of_allowed h.root hall)⟩
  | create row rest =>
    obtain ⟨hall, rfl⟩ := of_checked h.view hstep
    exact h.createInode row hall
  | append =>
    rw [← some.inj hstep]
    exact ⟨idx, h.appendIdle rfl fun ptr heq => absurd heq (by simp)⟩
  | createSnapshot name fault =>
    obtain ⟨result, hresult, rfl⟩ := map_eq_some_iff.mp hstep
    exact ⟨idx, h.createSnapshot result hresult⟩
  | deleteSnapshot name fault =>
    rw [← some.inj hstep]
    exact ⟨idx, h.deleteSnapshot hcareful⟩
  | restoreSnapshot name fault =>
    rw [← some.inj hstep]
    exact h.restoreSnapshot hcareful
  | restart => exact h.restart v' hstep

theorem recoverable : v.Recoverable := by
  obtain ⟨r, hr, hs⟩ := h
  refine ⟨_, hr.recover, ?_⟩
  intro live hlive key
  obtain rfl := hr.view live hlive
  exact hs.rows key

end

end Durable

/-! Runs. -/

theorem Durable.create (streamID : Name) :
    Durable (create streamID) (Index.applyChanges {}
      [(0, { key := .inode rootIno, row := some (.inode loadedRoot) })]) := by
  refine ⟨_, Traced.create streamID, fun key => rfl, ⟨loadedRoot, rfl, rfl⟩, ?_, ?_, show rootIno < 8 by decide⟩
  · exact fun p obj hobj => absurd hobj (by simp [MetaVolume.create])
  · exact fun _ _ hop => absurd hop not_mem_nil

theorem Durable.initFromSnapshot (streamID : Name) {source : Index} (hroot : RootDir source.rows) :
    Durable (initFromSnapshot streamID source) { source with position := 0 } := by
  obtain ⟨r, hr, hindex⟩ := Traced.initFromSnapshot streamID source
  have hobj : (MetaVolume.initFromSnapshot streamID source).objects.lookup 0 = some { source with position := 0 } :=
    AList.lookup_insert _
  refine ⟨r, hr, ?_, hroot, ?_, ?_, ?_⟩
  · intro key
    rw [addRoot_of_lookup hobj, hindex]
  · intro p obj hlookup
    rwa [(initFromSnapshot_objects streamID hlookup).2]
  · exact fun tx c hop => absurd (mem_singleton.mp hop) (by simp)
  · exact lt_of_lt_of_le (show rootIno < 8 by decide) (le_max_right _ _)

/-- A volume as `InitFromSnapshot`, or the first load, leaves it. -/
inductive MetaVolume.New : MetaVolume → Prop
  | create (streamID : Name) : New (create streamID)
  | clone (streamID : Name) {source : Index} (hroot : RootDir source.rows) : New (initFromSnapshot streamID source)

theorem MetaVolume.New.durable {v : MetaVolume} (h : v.New) : ∃ idx, Durable v idx := by
  cases h with
  | create streamID => exact ⟨_, Durable.create streamID⟩
  | clone streamID hroot => exact ⟨_, Durable.initFromSnapshot streamID hroot⟩

theorem Durable.exists_step (v : MetaVolume) (e : MetaEvent) (v' : MetaVolume) (h : ∃ idx, Durable v idx)
    (hcareful : v.Careful e) (hstep : v.step e = some v') : ∃ idx, Durable v' idx := by
  obtain ⟨idx, hidx⟩ := h
  exact hidx.step hcareful hstep

theorem MetaVolume.New.durable_run {v v' : MetaVolume} (h : v.New) {events : List MetaEvent}
    (hrun : Allowed step Careful v events)
    (hexec : exec step v events = some v') : ∃ idx, Durable v' idx := by
  have hreach : Reach MetaVolume.New step Careful v' := (Reach.start h).exec hrun hexec
  exact hreach.inv (fun _ => MetaVolume.New.durable) Durable.exists_step

/-- **Recovery yields what is served.** From every new volume or clone, along every run
whose steps meet `Careful`. -/
theorem recoverable_always {v : MetaVolume} (h : v.New) {events : List MetaEvent}
    (hrun : Allowed step Careful v events) :
    Throughout step Recoverable v events := by
  refine Allowed.throughout ?_ Durable.exists_step h.durable hrun
  rintro v ⟨idx, hidx⟩
  exact hidx.recoverable

/-- A file is made after a snapshot, the restore of the snapshot fails at its last step,
and the volume is loaded again: the snapshot cannot be deleted. -/
theorem recoverable_always_restored :
    let file : InodeRow := { isDir := false, mode := 0o644, nlink := 1 }
    let run : List MetaEvent :=
      [.create file [], .createSnapshot [97] none, .create file [], .restoreSnapshot [97] (some .publish), .restart,
        .deleteSnapshot [97] false]
    (exec step (create [118]) run).isSome ∧ Throughout step Recoverable (create [118]) run :=
  ⟨by decide, recoverable_always (.create [118]) (by decide)⟩

/-- Two snapshots are taken, and the restore of the first one fails at its last step. The
restore record is in the stream, and the delete of the snapshot that it names succeeds. -/
theorem delete_unrecoverable :
    let file : InodeRow := { isDir := false, mode := 0o644, nlink := 1 }
    let run : List MetaEvent :=
      [.create file [], .createSnapshot [97] none, .create file [], .createSnapshot [98] none,
        .restoreSnapshot [97] (some .publish), .deleteSnapshot [97] false]
    (exec step (create [118]) run).map (fun v => v.recover.isNone) = some true ∧
      ¬ Throughout step Recoverable (create [118]) run := by
  refine ⟨by decide, fun h => ?_⟩
  obtain ⟨r, hr, -⟩ := h.last (some_get (by decide)).symm
  exact absurd (isSome_of_eq_some hr) (by decide)

end InClusterStorage.Controller
