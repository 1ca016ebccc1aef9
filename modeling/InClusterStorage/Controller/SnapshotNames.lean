import InClusterStorage.Controller.Recoverable

/- Whether a snapshot that was created is found under its name.

   The name is in the pointer that the stream has of the snapshot, and the pointers that a
   volume knows are those it made or replayed. There is one pointer for an object, so that
   of two snapshots at one position only the last one has its name; and a load replays the
   stream from the newest snapshot on, so that older names are gone. A snapshot can also be
   called by the key of its object or the last part of it, and a name can be another
   snapshot's key.

   1. `names_found`: in a run whose steps meet `Kept`, every name is found at its position.
   2. `names_lost`: of two snapshots the older one loses its name in a restart, and of two
      snapshots at one position the first one has none. -/
namespace InClusterStorage.Controller

open Table MetaVolume Option Runs
open List hiding mem_keys

/-! The machine. -/

inductive NameEvent where
  | commit (changes : List RowChange)
  | create (row : InodeRow) (rest : List RowChange)
  | append
  | createSnapshot (name : Name) (fault : Option CreateStep)
  | deleteSnapshot (name : Name) (fault : Bool)
  | restart
  deriving DecidableEq, Repr

structure NameState where
  volume : MetaVolume
  /-- the snapshots that were created and not deleted, with their positions -/
  created : List (Name × Nat) := []
  /-- the names of all calls -/
  names : List Name := []

/-- The argument of a delete is the name, the key or the last part of the key. -/
def designates (streamID name : Name) (entry : Name × Nat) : Bool :=
  entry.1 = name || snapshotKey streamID entry.2 = name || snapshotBase entry.2 = name

namespace NameState

def step (s : NameState) : NameEvent → Option NameState
  | .commit changes => (s.volume.step (.commit changes)).map fun v => { s with volume := v }
  | .create row rest => (s.volume.step (.create row rest)).map fun v => { s with volume := v }
  | .append => (s.volume.step .append).map fun v => { s with volume := v }
  | .createSnapshot name fault =>
    -- the names of the calls are distinct and not empty
    if name = [] ∨ name ∈ s.names then none
    else s.volume.view.bind fun idx => (s.volume.createSnapshot fault name).map fun result =>
      { volume := result.1
        created := if result.2.isOk then (name, idx.position) :: s.created else s.created
        names := name :: s.names }
  | .deleteSnapshot name fault =>
    let result := s.volume.deleteSnapshot fault name
    some { s with
      volume := result.1
      created :=
        if result.2.isOk then s.created.filter fun entry => !designates s.volume.streamID name entry else s.created }
  | .restart => s.volume.restart.map fun v => { s with volume := v }

/-- `GetSnapshotInfo` and `RestoreSnapshot` find every name at its position. -/
def Found (s : NameState) : Prop :=
  ∀ entry ∈ s.created, s.volume.getSnapshotInfo entry.1 = some entry ∧
    (s.volume.findSnapshot entry.1).map (·.location) = some entry.2

/-- The name is not the key of the object at the position. -/
def Clear (streamID name : Name) (position : Nat) : Prop :=
  name ≠ snapshotBase position ∧ name ≠ snapshotKey streamID position

instance (streamID name : Name) (position : Nat) : Decidable (Clear streamID name position) := by
  unfold Clear
  infer_instance

/-- No snapshot is taken at the position of another one or with names and keys that are
mixed up, and no restart happens with a name of an older snapshot. -/
def Kept (s : NameState) : NameEvent → Prop
  | .createSnapshot name _ => ∀ idx ∈ s.volume.view,
      (∀ entry ∈ s.created, entry.2 ≠ idx.position ∧ Clear s.volume.streamID entry.1 idx.position) ∧
      ∀ q ∈ s.volume.objects.keys, q ≠ idx.position → Clear s.volume.streamID name q
  | .restart => ∀ entry ∈ s.created, entry.2 = s.volume.snapPos
  | _ => True

instance (s : NameState) (e : NameEvent) : Decidable (s.Kept e) := by
  unfold Kept
  split <;> infer_instance

end NameState

/-! Pointers. -/

/-- The last pointer to the object. -/
def lastPointer (pointers : List SnapshotPointer) (location : Nat) : Option SnapshotPointer :=
  (pointers.filter fun ptr => ptr.restoredFrom = none ∧ ptr.location = location).getLast?

/-- The pointer that `CreateSnapshot` makes. -/
def snapshotPointer (entry : Name × Nat) : SnapshotPointer :=
  { position := entry.2, location := entry.2, name := entry.1 }

section Pointers

variable {pointers : List SnapshotPointer} {ptr : SnapshotPointer} {location : Nat}

theorem MetaVolume.pointerTo_eq (v : MetaVolume) (location : Nat) :
    v.pointerTo location =
      (lastPointer v.snapshotPointers location).getD { position := location, location, name := snapshotBase location } :=
        rfl

theorem lastPointer_append (pointers : List SnapshotPointer) (ptr : SnapshotPointer) (location : Nat) :
    lastPointer (pointers ++ [ptr]) location =
      if ptr.restoredFrom = none ∧ ptr.location = location then some ptr else lastPointer pointers location := by
  unfold lastPointer
  rw [filter_append]
  split
  case isTrue h => rw [filter_singleton, decide_eq_true h, cond_true, getLast?_concat]
  case isFalse h => rw [filter_singleton, decide_eq_false h, cond_false, append_nil]

theorem lastPointer_mem (h : lastPointer pointers location = some ptr) : ptr ∈ pointers ∧ ptr.location = location := by
  have hmem := mem_filter.mp (mem_of_getLast? h)
  exact ⟨hmem.1, (of_decide_eq_true hmem.2).2⟩

theorem lastPointer_filter {other : Nat} (hne : location ≠ other) :
    lastPointer (pointers.filter fun ptr => ptr.location ≠ other) location = lastPointer pointers location := by
  unfold lastPointer
  rw [List.filter_filter]
  congr 1
  apply filter_congr
  intro ptr _
  by_cases hloc : ptr.location = location
  · simp [hloc, hne]
  · simp [hloc]

end Pointers

/-! The invariant. -/

/-- The pointer with the name is the last one to its object, in memory and in the stream
after the position, and no other object goes by the name. -/
structure EntryOk (v : MetaVolume) (names : List Name) (entry : Name × Nat) : Prop where
  used : entry.1 ∈ names
  nonempty : entry.1 ≠ []
  object : entry.2 ∈ v.objects.keys
  pointer : lastPointer v.snapshotPointers entry.2 = some (snapshotPointer entry)
  logged : lastPointer ((v.stream.drop entry.2).filterMap plainMark) entry.2 = some (snapshotPointer entry)
  unique : ∀ ptr, .mark ptr ∈ v.stream → ptr.location ∈ v.objects.keys → ptr.name = entry.1 → ptr.location = entry.2
  clear : ∀ q ∈ v.objects.keys, q ≠ entry.2 → NameState.Clear v.streamID entry.1 q

structure Named (s : NameState) (idx : Index) (r : Recovering) : Prop where
  traced : Traced s.volume idx r
  plain : ∀ ptr, .mark ptr ∈ s.volume.stream → ptr.restoredFrom = none
  pointers : ∀ ptr ∈ s.volume.snapshotPointers, .mark ptr ∈ s.volume.stream
  /-- a deleted snapshot is older than the newest one -/
  stale : ∀ ptr, .mark ptr ∈ s.volume.stream → ptr.location ∈ s.volume.objects.keys ∨ ptr.location < s.volume.snapPos
  known : ∀ ptr, .mark ptr ∈ s.volume.stream → ptr.name ∈ s.names ∨ ptr.name = snapshotBase ptr.location
  entries : ∀ entry ∈ s.created, EntryOk s.volume s.names entry

section Found

variable {s : NameState} {idx : Index} {r : Recovering} {entry : Name × Nat}

theorem Named.eq_of_matches (h : Named s idx r) (hentry : EntryOk s.volume s.names entry) {ptr : SnapshotPointer}
    (hptr : ptr ∈ s.volume.listSnapshots) (hmatches : ptr.snapshotMatches s.volume.streamID entry.1 = true) :
    ptr = snapshotPointer entry := by
  obtain ⟨q, hq, rfl⟩ := mem_listSnapshots.mp hptr
  by_cases heq : q = entry.2
  · rw [heq, pointerTo_eq, hentry.pointer, getD_some]
  obtain ⟨hbase, hkey⟩ := hentry.clear q hq heq
  have hname : (s.volume.pointerTo q).name = entry.1 := by
    unfold SnapshotPointer.snapshotMatches at hmatches
    rw [s.volume.pointerTo_location] at hmatches
    simpa [hentry.nonempty, hbase.symm, hkey.symm] using hmatches
  -- the pointer of the other object has another name
  rw [pointerTo_eq] at hname
  cases hlast : lastPointer s.volume.snapshotPointers q with
  | none =>
    rw [hlast] at hname
    exact absurd hname.symm hbase
  | some ptr =>
    rw [hlast, getD_some] at hname
    obtain ⟨hmem, hloc⟩ := lastPointer_mem hlast
    have := hentry.unique ptr (h.pointers ptr hmem) (by rw [hloc]; exact hq) hname
    exact absurd (hloc.symm.trans this) heq

theorem Named.findSnapshot (h : Named s idx r) (hentry : EntryOk s.volume s.names entry) :
    s.volume.findSnapshot entry.1 = some (snapshotPointer entry) := by
  have hmem : snapshotPointer entry ∈ s.volume.listSnapshots := by
    refine mem_listSnapshots.mpr ⟨entry.2, hentry.object, ?_⟩
    rw [pointerTo_eq, hentry.pointer, getD_some]
  have hmatches : (snapshotPointer entry).snapshotMatches s.volume.streamID entry.1 = true := by
    simp [SnapshotPointer.snapshotMatches, snapshotPointer, hentry.nonempty]
  unfold MetaVolume.findSnapshot
  cases hfind : s.volume.listSnapshots.find? fun ptr => ptr.snapshotMatches s.volume.streamID entry.1 with
  | none => exact absurd hmatches (by simpa using find?_eq_none.mp hfind _ hmem)
  | some ptr =>
    rw [h.eq_of_matches hentry (mem_of_find?_eq_some hfind) (find?_some hfind)]

theorem Named.found (h : Named s idx r) : s.Found := by
  intro entry hmem
  have hfind := h.findSnapshot (h.entries entry hmem)
  unfold getSnapshotInfo
  rw [hfind]
  exact ⟨rfl, rfl⟩

end Found

/-! The steps. -/

section Steps

variable {s s' : NameState} {v : MetaVolume} {idx idx' : Index} {r r' : Recovering}

theorem filterMap_plainMark_eq_nil {records : List StreamRecord} (h : ∀ ptr, .mark ptr ∉ records) :
    records.filterMap plainMark = [] := by
  rw [filterMap_eq_nil_iff]
  intro record hrecord
  cases record with
  | mark ptr => exact absurd hrecord (h ptr)
  | _ => rfl

section

variable (h : Named s idx r)
include h

theorem Named.of_append (htraced : Traced v idx' r') {records : List StreamRecord}
    (hstream : v.stream = s.volume.stream ++ records) (hnone : ∀ ptr, .mark ptr ∉ records)
    (hobjects : v.objects = s.volume.objects) (hpointers : v.snapshotPointers = s.volume.snapshotPointers)
    (hid : v.streamID = s.volume.streamID) : Named { s with volume := v } idx' r' := by
  have hmarks (ptr) : .mark ptr ∈ v.stream ↔ .mark ptr ∈ s.volume.stream := by
    rw [hstream, mem_append, or_iff_left (hnone ptr)]
  have hpos : v.snapPos = s.volume.snapPos := by unfold snapPos; rw [hobjects]
  constructor
  case traced => exact htraced
  case plain => simp only [hmarks]; exact h.plain
  case pointers => simp only [hmarks, hpointers]; exact h.pointers
  case stale => simp only [hmarks, hobjects, hpos]; exact h.stale
  case known => simp only [hmarks]; exact h.known
  case entries =>
    intro entry hmem
    have hentry := h.entries entry hmem
    refine { hentry with object := ?_, pointer := ?_, logged := ?_, unique := ?_, clear := ?_ }
    · rw [hobjects]; exact hentry.object
    · rw [hpointers]; exact hentry.pointer
    · obtain ⟨obj, hobj⟩ := isSome_iff_exists.mp (mem_keys.mp hentry.object)
      have hle := le_trans (h.traced.objects _ obj hobj).1 h.traced.tail.le
      rw [hstream, drop_append_of_le_length hle, filterMap_append, filterMap_plainMark_eq_nil hnone, append_nil]
      exact hentry.logged
    · simp only [hmarks, hobjects]; exact hentry.unique
    · rw [hobjects, hid]; exact hentry.clear

omit h in
theorem mark_notMem_block (tx : Nat) (changes : List RowChange) (ptr : SnapshotPointer) :
    TxLog.Record.mark ptr ∉ TxLog.block tx changes := by
  simp [TxLog.block]

theorem Named.commitTx (changes : List RowChange) :
    ∃ idx' r', Named { s with volume := s.volume.commitTx changes idx } idx' r' :=
  ⟨_, _, h.of_append (h.traced.commitTx changes) rfl (mark_notMem_block _ changes) rfl rfl rfl⟩

omit h in
theorem mem_keys_insert {objects : Objects} {p q : Nat} {obj : Index} :
    q ∈ (objects.insert p obj).keys ↔ q = p ∨ q ∈ objects.keys := by
  by_cases h : q = p <;> simp [h]

theorem Named.publish
    (hfree : ∀ entry ∈ s.created, entry.2 ≠ idx.position ∧ NameState.Clear s.volume.streamID entry.1 idx.position) :
    ∃ r', Named { s with volume := { s.volume with objects := s.volume.objects.insert idx.position idx } } idx r' := by
  obtain ⟨r', htraced, hindex⟩ := h.traced.publish
  have hle : s.volume.snapPos ≤ idx.position := h.traced.snapPos_le_position
  refine ⟨r', htraced, h.plain, h.pointers, ?_, h.known, ?_⟩
  · intro ptr hptr
    rw [h.traced.snapPos_publish, mem_keys_insert]
    rcases h.stale ptr hptr with hobject | hlt
    · exact .inl (.inr hobject)
    · exact .inr (lt_of_lt_of_le hlt hle)
  · intro entry hmem
    have hentry := h.entries entry hmem
    obtain ⟨hne, hclear⟩ := hfree entry hmem
    refine { hentry with object := mem_keys_insert.mpr (.inr hentry.object), unique := ?_, clear := ?_ }
    · intro ptr hptr hobject hname
      rcases mem_keys_insert.mp hobject with hnew | hold
      · -- a pointer to the position means that the object was there before
        rcases h.stale ptr hptr with hthere | hlt
        · exact hentry.unique ptr hptr hthere hname
        · exact absurd hlt (by rw [hnew]; exact not_lt.mpr hle)
      · exact hentry.unique ptr hptr hold hname
    · intro q hq hq'
      rcases mem_keys_insert.mp hq with rfl | hold
      · exact hclear
      · exact hentry.clear q hold hq'

theorem Named.addPointer {name : Name} (hnonempty : name ≠ []) (hfresh : name ∉ s.names)
    (hobject : idx.position ∈ s.volume.objects.keys)
    (hfree : ∀ entry ∈ s.created, entry.2 ≠ idx.position)
    (hclear : ∀ q ∈ s.volume.objects.keys, q ≠ idx.position → NameState.Clear s.volume.streamID name q) :
    ∃ r', Named
      { volume := { s.volume with
          stream := s.volume.stream ++ [.mark (snapshotPointer (name, idx.position))]
          snapshotPointers := s.volume.snapshotPointers ++ [snapshotPointer (name, idx.position)] }
        created := (name, idx.position) :: s.created
        names := name :: s.names } idx r' := by
  set ptr := snapshotPointer (name, idx.position) with hptr
  have hidle : idle (.mark ptr) = true := rfl
  obtain ⟨r', htraced, -⟩ := h.traced.appendIdle hidle fun p hp => by cases hp; rfl
  have hmarks (p) : .mark p ∈ s.volume.stream ++ [TxLog.Record.mark ptr] ↔ .mark p ∈ s.volume.stream ∨ p = ptr := by
    simp
  have hdrop (q) (hq : q ≤ s.volume.stream.length) :
      ((s.volume.stream ++ [TxLog.Record.mark ptr]).drop q).filterMap plainMark =
      (s.volume.stream.drop q).filterMap plainMark ++ [ptr] := by
    rw [drop_append_of_le_length hq, filterMap_append]
    rfl
  have hlength : ∀ q ∈ s.volume.objects.keys, q ≤ s.volume.stream.length := fun q hq =>
    le_trans (h.traced.keys_le q hq) h.traced.tail.le
  refine ⟨r', ?_⟩
  constructor
  case traced =>
    refine htraced.of_eq rfl rfl h.traced.view ?_
    exact forall_mem_append.mpr ⟨h.traced.pointers, forall_mem_singleton.mpr rfl⟩
  case plain =>
    intro p hp
    rcases (hmarks p).mp hp with hold | rfl
    · exact h.plain p hold
    · rfl
  case pointers =>
    intro p hp
    rcases mem_append.mp hp with hold | hnew
    · exact (hmarks p).mpr (.inl (h.pointers p hold))
    · exact (hmarks p).mpr (.inr (mem_singleton.mp hnew))
  case stale =>
    intro p hp
    rcases (hmarks p).mp hp with hold | rfl
    · exact h.stale p hold
    · exact .inl hobject
  case known =>
    intro p hp
    rcases (hmarks p).mp hp with hold | rfl
    · exact (h.known p hold).imp_left (mem_cons_of_mem _)
    · exact .inl mem_cons_self
  case entries =>
    refine forall_mem_cons.mpr ⟨?_, ?_⟩
    · -- the new one
      constructor
      case used => exact mem_cons_self
      case nonempty => exact hnonempty
      case object => exact hobject
      case pointer => rw [lastPointer_append, if_pos ⟨rfl, rfl⟩]
      case logged =>
        rw [hdrop _ (hlength _ hobject), lastPointer_append, if_pos ⟨rfl, rfl⟩]
      case unique =>
        intro p hp hloc hname
        rcases (hmarks p).mp hp with hold | rfl
        · rcases h.known p hold with hused | hbase
          · rw [hname] at hused
            exact absurd hused hfresh
          · -- a pointer with the name of its object
            by_contra hne
            exact (hclear p.location hloc hne).1 (hname.symm.trans hbase)
        · rfl
      case clear => exact hclear
    · intro entry hmem
      have hentry := h.entries entry hmem
      have hne : ¬ (ptr.restoredFrom = none ∧ ptr.location = entry.2) := fun hboth => hfree entry hmem hboth.2.symm
      refine { hentry with used := mem_cons_of_mem _ hentry.used, pointer := ?_, logged := ?_, unique := ?_ }
      · rw [lastPointer_append, if_neg hne]; exact hentry.pointer
      · rw [hdrop _ (hlength _ hentry.object), lastPointer_append, if_neg hne]
        exact hentry.logged
      · intro p hp hloc hname
        rcases (hmarks p).mp hp with hold | rfl
        · exact hentry.unique p hold hloc hname
        · have heq : name = entry.1 := hname
          exact absurd (heq ▸ hentry.used) hfresh

theorem Named.names_mono (name : Name) : Named { s with names := name :: s.names } idx r :=
  { h with
    known ptr hptr := (h.known ptr hptr).imp_left (mem_cons_of_mem _)
    entries entry hmem := { h.entries entry hmem with used := mem_cons_of_mem _ (h.entries entry hmem).used } }

theorem Named.createSnapshot {name : Name} {fault : Option CreateStep}
    (hkept : s.Kept (.createSnapshot name fault)) (hstep : s.step (.createSnapshot name fault) = some s') :
    ∃ idx' r', Named s' idx' r' := by
  simp only [NameState.step] at hstep
  split at hstep
  · simp at hstep
  case isFalse hname =>
    obtain ⟨hnonempty, hfresh⟩ := not_or.mp hname
    obtain ⟨live, hlive, hstep⟩ := bind_eq_some_iff.mp hstep
    obtain rfl := h.traced.view live hlive
    obtain ⟨hfree, hclear⟩ := hkept live hlive
    obtain ⟨result, hresult, rfl⟩ := map_eq_some_iff.mp hstep
    obtain ⟨live', hlive', rfl⟩ := map_eq_some_iff.mp hresult
    obtain rfl := some.inj (hlive.symm.trans hlive')
    simp only [if_neg hnonempty]
    obtain ⟨r₁, hpublished⟩ := h.publish hfree
    by_cases hpublish : fault = some .publish
    · simp only [if_pos hpublish]
      exact ⟨live, r, h.names_mono name⟩
    by_cases happend : fault = some .append
    · simp only [if_neg hpublish, if_pos happend]
      exact ⟨live, r₁, hpublished.names_mono name⟩
    simp only [if_neg hpublish, if_neg happend]
    have hobject : live.position ∈ (s.volume.objects.insert live.position live).keys := mem_keys_insert.mpr (.inl rfl)
    obtain ⟨r', hadded⟩ := hpublished.addPointer hnonempty hfresh hobject (fun entry hmem => (hfree entry hmem).1)
      fun q hq hne => hclear q ((mem_keys_insert.mp hq).resolve_left hne) hne
    exact ⟨live, r', hadded⟩

omit h in
theorem mem_keys_erase {objects : Objects} {p q : Nat} : q ∈ (objects.erase p).keys ↔ q ≠ p ∧ q ∈ objects.keys := by
  simp only [mem_keys, lookup_erase]
  by_cases h : q = p <;> simp [h]

theorem Named.erase {p location : Nat} (hlatest : findLatestSnapshot s.volume.objects = some p)
    (hne : p ≠ location) {created : List (Name × Nat)} (hsub : ∀ entry ∈ created, entry ∈ s.created ∧ entry.2 ≠ location) :
    Named { s with
      volume := { s.volume with
        objects := s.volume.objects.erase location
        snapshotPointers := s.volume.snapshotPointers.filter fun ptr => ptr.location ≠ location }
      created } idx r := by
  have hnone : (s.volume.stream.drop s.volume.snapPos).any (restores location) = false := by
    rw [List.any_eq_false]
    intro record hrecord
    cases record with
    | mark ptr =>
      have hplain := h.plain ptr (mem_of_mem_drop hrecord)
      simp [restores, hplain]
    | _ => simp [restores]
  have herased := h.traced.erase hlatest hne hnone
  have hpos : s.volume.snapPos = p := by unfold snapPos; rw [hlatest]; rfl
  have hpos' : snapPos { s.volume with objects := s.volume.objects.erase location } = p := by
    unfold snapPos
    rw [findLatestSnapshot_erase hlatest hne]
    rfl
  refine { h with traced := ?_, pointers := ?_, stale := ?_, entries := ?_ }
  · exact herased.of_eq rfl rfl h.traced.view fun ptr hptr => h.traced.pointers ptr (mem_filter.mp hptr).1
  · exact fun ptr hptr => h.pointers ptr (mem_filter.mp hptr).1
  · intro ptr hptr
    show _ ∨ ptr.location < snapPos { s.volume with objects := s.volume.objects.erase location }
    rw [hpos', mem_keys_erase]
    rcases h.stale ptr hptr with hobject | hlt
    · by_cases heq : ptr.location = location
      · -- the removed object is older than the newest
        have hle := (findLatestSnapshot_eq_some.mp hlatest).2 _ hobject
        rw [heq] at hle ⊢
        exact .inr (lt_of_le_of_ne hle hne.symm)
      · exact .inl ⟨heq, hobject⟩
    · rw [hpos] at hlt
      exact .inr hlt
  · intro entry hmem
    obtain ⟨hold, hother⟩ := hsub entry hmem
    have hentry := h.entries entry hold
    exact { hentry with
      object := mem_keys_erase.mpr ⟨hother, hentry.object⟩
      pointer := (lastPointer_filter hother).trans hentry.pointer
      unique ptr hptr hloc := hentry.unique ptr hptr (mem_keys_erase.mp hloc).2
      clear q hq := hentry.clear q (mem_keys_erase.mp hq).2 }

theorem Named.deleteSnapshot {name : Name} {fault : Bool}
    (hstep : s.step (.deleteSnapshot name fault) = some s') : ∃ r', Named s' idx r' := by
  rw [← some.inj hstep]
  rcases h.traced.deleteSnapshot_cases fault name with heq | ⟨target, p, hfind, hp, hne, heq⟩
  · rw [heq]
    refine ⟨r, { h with entries := fun entry hmem => h.entries entry ?_ }⟩
    split at hmem
    · exact (mem_filter.mp hmem).1
    · exact hmem
  · rw [heq]
    refine ⟨r, h.erase hp hne ?_⟩
    intro entry hmem
    obtain ⟨hold, hother⟩ := mem_filter.mp hmem
    refine ⟨hold, fun hloc => ?_⟩
    -- the target is the snapshot of the entry, so the entry goes by the name
    obtain ⟨q, -, htarget⟩ := mem_listSnapshots.mp (mem_of_findSnapshot hfind)
    have hq : q = entry.2 := by rw [hloc, ← htarget, s.volume.pointerTo_location]
    rw [hq, pointerTo_eq, (h.entries entry hold).pointer, getD_some] at htarget
    have hmatches := find?_some hfind
    rw [← htarget] at hmatches
    have hdesignates : designates s.volume.streamID name entry = true := by
      exact (Bool.and_eq_true_iff.mp hmatches).2
    rw [hdesignates] at hother
    simp at hother

/-- Only the newest snapshot has a name that a load finds. -/
theorem Named.load (hnewest : ∀ entry ∈ s.created, entry.2 = s.volume.snapPos) :
    Named { s with volume := s.volume.load { r with index := s.volume.addRoot r.index } } (s.volume.addRoot r.index) r := by
  have hpointers : (s.volume.load { r with index := s.volume.addRoot r.index }).snapshotPointers =
      (s.volume.stream.drop s.volume.snapPos).filterMap plainMark := h.traced.replayed_pointers
  refine { h with traced := h.traced.load, pointers := ?_, entries := ?_ }
  · intro ptr hptr
    have hmem : ptr ∈ (s.volume.stream.drop s.volume.snapPos).filterMap plainMark := by
      rwa [← hpointers]
    exact mem_of_mem_drop (Traced.mem_of_plainMark hmem).1
  · intro entry hmem
    have hentry := h.entries entry hmem
    refine { hentry with pointer := ?_ }
    rw [hpointers, ← hnewest entry hmem]
    exact hentry.logged

theorem Named.cleanOrphanInodes : ∃ idx' r', Named { s with volume := s.volume.cleanOrphanInodes idx } idx' r' := by
  unfold MetaVolume.cleanOrphanInodes
  split
  · exact ⟨idx, r, h⟩
  · exact h.commitTx _

theorem Named.restart (hnewest : ∀ entry ∈ s.created, entry.2 = s.volume.snapPos)
    (hv : s.volume.restart = some v) : ∃ idx' r', Named { s with volume := v } idx' r' := by
  unfold MetaVolume.restart at hv
  rw [h.traced.recover, map_some] at hv
  obtain rfl := some.inj hv
  obtain ⟨idx', r', hnamed⟩ := (h.load hnewest).cleanOrphanInodes
  have htraced := hnamed.traced
  generalize MetaVolume.cleanOrphanInodes _ _ = cleaned at hnamed htraced ⊢
  exact ⟨idx', r', hnamed.of_append (htraced.of_eq rfl rfl htraced.view htraced.pointers) (append_nil _).symm
    (fun ptr => not_mem_nil) rfl rfl rfl⟩

theorem Named.step {e : NameEvent} (hkept : s.Kept e) (hstep : s.step e = some s') : ∃ idx' r', Named s' idx' r' := by
  cases e with
  | commit changes =>
    obtain ⟨v, hv, rfl⟩ := map_eq_some_iff.mp hstep
    obtain ⟨-, rfl⟩ := of_checked h.traced.view hv
    exact h.commitTx changes
  | create row rest =>
    obtain ⟨v, hv, rfl⟩ := map_eq_some_iff.mp hstep
    obtain ⟨-, rfl⟩ := of_checked h.traced.view hv
    have htaken : Traced { s.volume with nextInode := s.volume.nextInode + 8 } idx r :=
      h.traced.of_eq rfl rfl h.traced.view h.traced.pointers
    exact ⟨_, _, h.of_append (htaken.commitTx _) rfl (mark_notMem_block _ _) rfl rfl rfl⟩
  | append =>
    rw [← some.inj hstep]
    have hidle : idle .other = true := rfl
    obtain ⟨r', htraced, -⟩ := h.traced.appendIdle hidle fun ptr heq => absurd heq (by simp)
    exact ⟨idx, r', h.of_append htraced rfl (fun ptr hmem => absurd (mem_singleton.mp hmem) (by simp)) rfl rfl rfl⟩
  | createSnapshot name fault => exact h.createSnapshot hkept hstep
  | deleteSnapshot name fault =>
    obtain ⟨r', hr'⟩ := h.deleteSnapshot hstep
    exact ⟨idx, r', hr'⟩
  | restart =>
    obtain ⟨v, hv, rfl⟩ := map_eq_some_iff.mp hstep
    exact h.restart hkept hv

end

end Steps

/-! Runs. -/

theorem Named.new {v : MetaVolume} (h : v.New) : ∃ idx r, Named { volume := v } idx r := by
  cases h with
  | create streamID =>
    exact ⟨_, _, Traced.create streamID, fun ptr hptr => absurd hptr not_mem_nil,
      fun ptr hptr => absurd hptr not_mem_nil, fun ptr hptr => absurd hptr not_mem_nil,
      fun ptr hptr => absurd hptr not_mem_nil, fun entry hmem => absurd hmem not_mem_nil⟩
  | @clone streamID source _ =>
    obtain ⟨r, htraced, -⟩ := Traced.initFromSnapshot streamID source
    have hptr (ptr) (hptr : .mark ptr ∈ (initFromSnapshot streamID source).stream) :
        ptr = snapshotPointer (snapshotBase 0, 0) := by
      cases mem_singleton.mp hptr
      rfl
    refine ⟨_, r, htraced, ?_, ?_, ?_, ?_, fun entry hmem => absurd hmem not_mem_nil⟩
    · exact fun ptr h => by rw [hptr ptr h]; rfl
    · exact fun ptr h => by rw [mem_singleton.mp h]; exact mem_singleton.mpr rfl
    · exact fun ptr h => by rw [hptr ptr h]; exact .inl (mem_keys_insert.mpr (.inl rfl))
    · exact fun ptr h => by rw [hptr ptr h]; exact .inr rfl

/-- **Every name is found at its position.** From every new volume or clone, along every
run whose steps meet `Kept`. -/
theorem names_found {v : MetaVolume} (h : v.New) {events : List NameEvent}
    (hrun : Allowed NameState.step NameState.Kept { volume := v } events) :
    Throughout NameState.step NameState.Found { volume := v } events := by
  have hfound (s) (hs : ∃ idx r, Named s idx r) : s.Found := by
    obtain ⟨idx, r, hr⟩ := hs
    exact hr.found
  have hsteps (s e s') (hs : ∃ idx r, Named s idx r) (hkept : s.Kept e) (hstep : s.step e = some s') : ∃ idx r,
      Named s' idx r := by
    obtain ⟨idx, r, hr⟩ := hs
    exact hr.step hkept hstep
  exact Allowed.throughout hfound hsteps (Named.new h) hrun

/-- Two snapshots with a file in between; the older one is deleted before the volume is
loaded again. -/
theorem names_found_deleted :
    let file : InodeRow := { isDir := false, mode := 0o644, nlink := 1 }
    let run : List NameEvent :=
      [.create file [], .createSnapshot [97] none, .create file [], .createSnapshot [98] none, .deleteSnapshot [97] false,
        .restart]
    (exec NameState.step { volume := .create [118] } run).map (·.created) = some [([98], 5)] ∧
      Throughout NameState.step NameState.Found { volume := .create [118] } run :=
  ⟨by decide +kernel, names_found (.create [118]) (by decide +kernel)⟩

/-- Two snapshots with a file in between, and the volume is loaded again; two snapshots
with nothing in between. -/
theorem names_lost :
    let file : InodeRow := { isDir := false, mode := 0o644, nlink := 1 }
    let restarted : List NameEvent :=
      [.create file [], .createSnapshot [97] none, .create file [], .createSnapshot [98] none, .restart]
    let twice : List NameEvent := [.create file [], .createSnapshot [97] none, .createSnapshot [98] none]
    ¬ Throughout NameState.step NameState.Found { volume := .create [118] } restarted ∧
      ¬ Throughout NameState.step NameState.Found { volume := .create [118] } twice := by
  intro file restarted twice
  have hlost : ∀ run : List NameEvent, (exec NameState.step { volume := .create [118] } run).map
      (fun s => (s.created.any (·.1 = [97]), s.volume.getSnapshotInfo [97])) = some (true, none) →
      ¬ Throughout NameState.step NameState.Found { volume := .create [118] } run := by
    intro run hrun h
    obtain ⟨s, hexec, hs⟩ := map_eq_some_iff.mp hrun
    obtain ⟨hcreated, hinfo⟩ := Prod.mk.inj hs
    obtain ⟨entry, hmem, hname⟩ := any_eq_true.mp hcreated
    have hfound := ((h.last hexec) entry hmem).1
    rw [of_decide_eq_true hname, hinfo] at hfound
    simp at hfound
  exact ⟨hlost restarted (by decide +kernel), hlost twice (by decide +kernel)⟩

end InClusterStorage.Controller
