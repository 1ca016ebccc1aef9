import InClusterStorage.Controller.RebuildIndex

/- Whether an inode number is ever used again.

   The next number is kept in memory; a load takes it from the statistics row of the index
   and the inode numbers in the records that it replays. A restore takes the statistics of
   the older index, and `rebuildIndex` counts them again from the rows that are left: both
   forget the largest number that was used, until the next inode is made.

   1. `inode_numbers_distinct`: all numbers that `allocInode` returns are different in every
      run that has no restart between a restore or a rebuild and the next creation.
   2. `inode_number_reused`: a restart right after a restore uses a number again. -/
namespace InClusterStorage.Controller

open Table MetaVolume List Option Index Runs

/-! The machine. -/

inductive NumberEvent where
  /-- a transaction on rows that exist -/
  | commit (changes : List RowChange)
  /-- a transaction with a new inode -/
  | create (row : InodeRow) (rest : List RowChange)
  | append
  | createSnapshot (name : Name)
  | restoreSnapshot (name : Name)
  | rebuild
  | restart
  deriving DecidableEq, Repr

structure NumberState where
  volume : MetaVolume
  /-- what `allocInode` has returned -/
  allocated : List Nat := []
  /-- a restore or a rebuild has replaced the statistics, and no inode was made since -/
  replaced : Bool := false

namespace NumberState

def step (s : NumberState) : NumberEvent → Option NumberState
  | .commit changes => (s.volume.step (.commit changes)).map fun v => { s with volume := v }
  | .create row rest => (s.volume.step (.create row rest)).map fun v =>
    { volume := v, allocated := s.volume.nextInode :: s.allocated, replaced := false }
  | .append => (s.volume.step .append).map fun v => { s with volume := v }
  | .createSnapshot name => (s.volume.step (.createSnapshot name none)).map fun v => { s with volume := v }
  | .restoreSnapshot name => (s.volume.step (.restoreSnapshot name none)).map fun v =>
    { s with volume := v, replaced := s.replaced || (s.volume.findSnapshot name).isSome }
  | .rebuild => s.volume.rebuild.map fun v => { s with volume := v, replaced := true }
  | .restart => s.volume.restart.map fun v => { s with volume := v }

def Distinct (s : NumberState) : Prop := s.allocated.Nodup

/-- No restart while the statistics are those of an older index. -/
def Settled (s : NumberState) : NumberEvent → Prop
  | .restart => s.replaced = false
  | _ => True

instance (s : NumberState) (e : NumberEvent) : Decidable (s.Settled e) := by
  unfold Settled
  split <;> infer_instance

end NumberState

/-! The largest inode number of an index. -/

/-- No inode row has a number above the statistics. -/
def MaxOk (idx : Index) : Prop := ∀ ino row, idx.rows.lookup (.inode ino) = some row → ino ≤ idx.maxIno

/-- The changes write inode rows with numbers below the next one only. -/
def WritesBelow (next : Nat) (changes : List RowChange) : Prop :=
  ∀ c ∈ changes, ∀ ino, c.key = .inode ino → c.row ≠ none → ino < next

namespace Index

variable {idx : Index} {next : Nat}

theorem le_countNew (idx : Index) (c : RowChange) : idx.maxIno ≤ idx.countNew c := by
  unfold countNew
  split
  · exact le_max_left _ _
  · exact le_rfl

variable (changes : List RowChange)

theorem le_foldl_maxIno : ∀ idx : Index, idx.maxIno ≤ (changes.foldl applyChange idx).maxIno := by
  induction changes with
  | nil => intro idx; exact le_rfl
  | cons c changes ih => intro idx; exact le_trans (idx.le_countNew c) (ih (idx.applyChange c))

theorem foldl_maxIno_lt : ∀ {idx : Index}, WritesBelow next changes → idx.maxIno < next →
    (changes.foldl applyChange idx).maxIno < next := by
  induction changes with
  | nil => intro idx _ h; exact h
  | cons c changes ih =>
    intro idx hwrites h
    obtain ⟨hc, hrest⟩ := forall_mem_cons.mp hwrites
    apply ih hrest
    show idx.countNew c < next
    unfold countNew
    split
    case h_1 ino row hkey _ hrow => exact Nat.max_lt.mpr ⟨h, hc ino hkey (by rw [hrow]; simp)⟩
    case h_2 => exact h

theorem maxOk_applyChange (h : MaxOk idx) (c : RowChange) : MaxOk (idx.applyChange c) := by
  intro ino row hlookup
  have hrow : (if RowKey.inode ino = c.key then c.row else idx.rows.lookup (.inode ino)) = some row := by
    rwa [← c.lookup_apply]
  show ino ≤ idx.countNew c
  split at hrow
  case isTrue hkey =>
    cases hold : idx.rows.lookup (.inode ino) with
    | some old => exact le_trans (h ino old hold) (idx.le_countNew c)
    | none =>
      unfold countNew
      rw [← hkey, hold, hrow]
      exact le_max_right _ _
  case isFalse => exact le_trans (h ino row hrow) (idx.le_countNew c)

theorem maxOk_foldl : ∀ {idx : Index}, MaxOk idx → MaxOk (changes.foldl applyChange idx) := by
  induction changes with
  | nil => intro idx h; exact h
  | cons c changes ih => intro idx h; exact ih (maxOk_applyChange h c)

theorem le_maxIno_cons {ino : Nat} {row : Row} (rest : List RowChange) (h : idx.rows.lookup (.inode ino) = none) :
    ino ≤ ((⟨.inode ino, some row⟩ :: rest).foldl applyChange idx).maxIno := by
  refine le_trans ?_ (le_foldl_maxIno rest _)
  show ino ≤ idx.countNew _
  unfold countNew
  simp only [h]
  exact le_max_right _ _

/-- What a key counts for. -/
def numberOf : RowKey → Nat
  | .inode ino => ino
  | _ => 0

theorem countMaxIno_eq (idx : Index) : idx.countMaxIno = idx.rows.keys.foldl (fun m key => max m (numberOf key)) 0 := by
  unfold countMaxIno
  congr 1
  funext m key
  cases key <;> simp [numberOf]

theorem maxOk_countMaxIno (idx : Index) : MaxOk { idx with maxIno := idx.countMaxIno } := by
  intro ino row hlookup
  have hmem : RowKey.inode ino ∈ idx.rows.keys := mem_keys.mpr (isSome_of_eq_some hlookup)
  rw [countMaxIno_eq]
  show numberOf (.inode ino) ≤ _
  exact le_foldl_max.2 _ hmem

theorem countMaxIno_lt (hnext : 0 < next) (h : ∀ ino row, idx.rows.lookup (.inode ino) = some row → ino < next) :
    idx.countMaxIno < next := by
  have hle (key) (hkey : key ∈ idx.rows.keys) : numberOf key ≤ next - 1 := by
    cases key with
    | inode ino =>
      obtain ⟨row, hrow⟩ := isSome_iff_exists.mp (mem_keys.mp hkey)
      exact Nat.le_sub_one_of_lt (h ino row hrow)
    | _ => exact Nat.zero_le _
  have := foldl_max_le hle (Nat.zero_le _)
  rw [countMaxIno_eq]
  omega

/-- The numbers of the index are below the next one. -/
def Below (next : Nat) (idx : Index) : Prop := MaxOk idx ∧ idx.maxIno < next

theorem Below.applyChanges (h : idx.Below next) {numbered : List (Nat × RowChange)}
    (hwrites : WritesBelow next (numbered.map Prod.snd)) : (idx.applyChanges numbered).Below next :=
  ⟨maxOk_foldl _ h.1, foldl_maxIno_lt _ hwrites h.2⟩

theorem Below.mono (h : idx.Below next) {next' : Nat} (hle : next ≤ next') : idx.Below next' :=
  ⟨h.1, lt_of_lt_of_le h.2 hle⟩

end Index

/-! The invariant. -/

/-- No number that was used, and no snapshot, is above the bound. -/
def NumberState.Covers (s : NumberState) (bound : Nat) : Prop :=
  (∀ n ∈ s.allocated, n ≤ bound) ∧ ∀ p obj, s.volume.objects.lookup p = some obj → obj.maxIno ≤ bound

structure Numbered (s : NumberState) (idx : Index) (r : Recovering) : Prop where
  traced : Traced s.volume idx r
  live : idx.Below s.volume.nextInode
  replay : r.index.Below s.volume.nextInode
  objects : ∀ p obj, s.volume.objects.lookup p = some obj → obj.Below s.volume.nextInode
  next : 8 ≤ s.volume.nextInode
  allocated : ∀ n ∈ s.allocated, n < s.volume.nextInode
  nodup : s.allocated.Nodup
  settled : s.replaced = false → s.Covers idx.maxIno ∧ s.Covers r.index.maxIno

section Steps

variable {s s' : NumberState} {idx : Index} {r : Recovering} {changes : List RowChange}

theorem NumberState.Covers.mono {bound bound' : Nat} (h : s.Covers bound) (hle : bound ≤ bound') : s.Covers bound' :=
  ⟨fun n hn => le_trans (h.1 n hn) hle, fun p obj hobj => le_trans (h.2 p obj hobj) hle⟩

theorem Numbered.commitTx (h : Numbered s idx r) (hwrites : WritesBelow s.volume.nextInode changes) :
    Numbered { s with volume := s.volume.commitTx changes idx } (s.volume.afterTx changes idx)
      ((loadReplay s.volume.objects).apply r (TxLog.numbered s.volume.stream.length changes)) :=
  { h with
    traced := h.traced.commitTx changes
    live := h.live.applyChanges (by rw [s.volume.map_snd_numberedTx]; exact hwrites)
    replay := h.replay.applyChanges (by rw [TxLog.numbered_map_snd]; exact hwrites)
    settled hsettled := by
      obtain ⟨hlive, hreplay⟩ := h.settled hsettled
      exact ⟨hlive.mono (le_foldl_maxIno _ idx), hreplay.mono (le_foldl_maxIno _ r.index)⟩ }

theorem Numbered.writesBelow (h : Numbered s idx r) (hall : changes.all (·.allowed idx.rows) = true) :
    WritesBelow s.volume.nextInode changes := by
  intro c hc ino hkey hrow
  have hallowed := all_eq_true.mp hall c hc
  unfold RowChange.allowed at hallowed
  rw [hkey] at hallowed
  cases hc' : c.row with
  | none => exact absurd hc' hrow
  | some row =>
    cases hold : idx.rows.lookup (.inode ino) with
    | some old => exact lt_of_le_of_lt (h.live.1 ino old hold) h.live.2
    | none =>
      rw [hc'] at hallowed
      cases row with
      | inode row => simp [hold] at hallowed
      | value bytes => simp at hallowed

theorem Index.Below.lookup_eq_none {next : Nat} (h : idx.Below next) : idx.rows.lookup (.inode next) = none := by
  cases hlookup : idx.rows.lookup (.inode next) with
  | none => rfl
  | some row => exact absurd (h.1 next row hlookup) (not_le.mpr h.2)

section

variable (h : Numbered s idx r)
include h

theorem Numbered.createInode (row : InodeRow) {rest : List RowChange}
    (hall : rest.all (·.allowed idx.rows) = true) :
    ∃ idx' r', Numbered
      { volume := s.volume.createInode row rest idx, allocated := s.volume.nextInode :: s.allocated, replaced := false }
      idx' r' := by
  set n := s.volume.nextInode
  have hlt : n < n + 8 := by omega
  -- the number is taken
  have htaken : Numbered { s with volume := { s.volume with nextInode := n + 8 } } idx r :=
    { traced := h.traced.of_eq rfl rfl h.traced.view h.traced.pointers
      live := h.live.mono (le_of_lt hlt)
      replay := h.replay.mono (le_of_lt hlt)
      objects p obj hobj := (h.objects p obj hobj).mono (le_of_lt hlt)
      next := le_trans h.next (le_of_lt hlt)
      allocated m hm := lt_trans (h.allocated m hm) hlt
      nodup := h.nodup
      settled := h.settled }
  have hwrites : WritesBelow (n + 8) (⟨.inode n, some (.inode row)⟩ :: rest) := by
    intro c hc ino hkey hrow
    rcases mem_cons.mp hc with rfl | hmem
    · cases hkey
      exact hlt
    · exact lt_trans (h.writesBelow hall c hmem ino hkey hrow) hlt
  have hcommitted := htaken.commitTx hwrites
  refine ⟨_, _, { hcommitted with allocated := ?_, nodup := ?_, settled := ?_ }⟩
  · exact forall_mem_cons.mpr ⟨hlt, htaken.allocated⟩
  · exact nodup_cons.mpr ⟨fun hmem => absurd (h.allocated n hmem) (lt_irrefl _), h.nodup⟩
  · -- the statistics of both have the new number
    intro _
    have hcovers : ∀ bound, n ≤ bound → NumberState.Covers
        { volume := s.volume.createInode row rest idx, allocated := n :: s.allocated, replaced := false } bound := by
      intro bound hbound
      refine ⟨forall_mem_cons.mpr ⟨hbound, fun m hm => ?_⟩, fun p obj hobj => ?_⟩
      · exact le_trans (le_of_lt (h.allocated m hm)) hbound
      · exact le_trans (le_of_lt (h.objects p obj hobj).2) hbound
    constructor
    · apply hcovers
      unfold afterTx applyChanges
      rw [map_snd_numberedTx]
      exact le_maxIno_cons rest h.live.lookup_eq_none
    · apply hcovers
      show n ≤ (((TxLog.numbered _ (_ :: rest)).map Prod.snd).foldl applyChange r.index).maxIno
      rw [TxLog.numbered_map_snd]
      exact le_maxIno_cons rest h.replay.lookup_eq_none

theorem Numbered.of_traced {v : MetaVolume} {r' : Recovering} (htraced : Traced v idx r')
    (hindex : r'.index = r.index) (hobjects : v.objects = s.volume.objects) (hnext : s.volume.nextInode ≤ v.nextInode) :
    Numbered { s with volume := v } idx r' where
  traced := htraced
  live := h.live.mono hnext
  replay := by rw [hindex]; exact h.replay.mono hnext
  objects p obj hobj := by
    rw [hobjects] at hobj
    exact (h.objects p obj hobj).mono hnext
  next := le_trans h.next hnext
  allocated n hn := lt_of_lt_of_le (h.allocated n hn) hnext
  nodup := h.nodup
  settled := by
    unfold NumberState.Covers
    rw [hindex, hobjects]
    exact h.settled

theorem Numbered.publish :
    ∃ r', Numbered { s with volume := { s.volume with objects := s.volume.objects.insert idx.position idx } } idx r' := by
  obtain ⟨r', htraced, hindex⟩ := h.traced.publish
  refine ⟨r', htraced, h.live, by rw [hindex]; exact h.live, forall_insert h.live h.objects, h.next, h.allocated,
    h.nodup, ?_⟩
  intro hsettled
  obtain ⟨hused, hold⟩ := (h.settled hsettled).1
  rw [hindex]
  have hcovers : ∀ p obj, (s.volume.objects.insert idx.position idx).lookup p = some obj → obj.maxIno ≤ idx.maxIno :=
    forall_insert le_rfl hold
  exact ⟨⟨hused, hcovers⟩, ⟨hused, hcovers⟩⟩

theorem Numbered.createSnapshot {name : Name} :
    ∀ result ∈ s.volume.createSnapshot none name, ∃ r', Numbered { s with volume := result.1 } idx r' := by
  intro result hresult
  obtain ⟨live, hview, rfl⟩ := map_eq_some_iff.mp hresult
  obtain rfl := h.traced.view live hview
  obtain ⟨r₁, hpublished⟩ := h.publish
  set ptr : SnapshotPointer :=
    { position := live.position, location := live.position, name := if name = [] then snapshotBase live.position else name }
  have hidle : idle (.mark ptr) = true := rfl
  obtain ⟨r', happended, hindex⟩ := hpublished.traced.appendIdle hidle fun p hp => by cases hp; rfl
  refine ⟨r', hpublished.of_traced (happended.of_eq rfl rfl h.traced.view ?_) hindex rfl le_rfl⟩
  exact forall_mem_append.mpr ⟨h.traced.pointers, forall_mem_singleton.mpr rfl⟩

end

theorem MetaVolume.restoreSnapshot_notFound (v : MetaVolume) {name : Name} (hfind : v.findSnapshot name = none) :
    (v.restoreSnapshot none name).1 = { v with staged := ∅ } := by
  have hfind' : findSnapshot name { v with staged := ∅ } = none := hfind
  unfold restoreSnapshot
  simp only [reduceCtorEq, if_false, hfind']

theorem Numbered.restoreSnapshot (h : Numbered s idx r) {name : Name} {target : SnapshotPointer}
    (hfind : s.volume.findSnapshot name = some target) :
    ∃ idx' r', Numbered { s with volume := (s.volume.restoreSnapshot none name).1, replaced := true } idx' r' := by
  obtain ⟨obj, r', hobj, htraced, hindex, hobjects, hnext⟩ := h.traced.restoreSnapshot hfind
  have hrestored : Index.Below (s.volume.restoreSnapshot none name).1.nextInode (s.volume.restoredIndex obj) :=
    (h.objects _ obj hobj).mono hnext
  refine ⟨_, r', htraced, hrestored, by rw [hindex]; exact hrestored, ?_, le_trans h.next hnext,
    fun n hn => lt_of_lt_of_le (h.allocated n hn) hnext, h.nodup, fun hsettled => absurd hsettled (by simp)⟩
  rw [hobjects]
  exact forall_insert hrestored fun p obj' hobj' => (h.objects p obj' hobj').mono hnext

theorem Numbered.rebuild (h : Numbered s idx r) {v : MetaVolume} (hv : s.volume.rebuild = some v) :
    ∃ idx', Numbered { s with volume := v, replaced := true } idx' r := by
  obtain ⟨rebuilt, hrebuild, hposition, hmax, -, hagree⟩ := h.traced.rebuildIndex
  unfold MetaVolume.rebuild at hv
  rw [hrebuild, map_some] at hv
  obtain rfl := some.inj hv
  have htraced : Traced { s.volume with
      view := some rebuilt
      replayStartPos := s.volume.snapPos
      replaySnapshotLocation :=
        if s.volume.snapPos > 0 then findLatestSnapshot s.volume.objects else s.volume.replaySnapshotLocation }
          rebuilt r := by
    refine { h.traced with
      view := fun live hlive => (some.inj hlive).symm, tail := by rw [hposition]; exact h.traced.replayTail, objects := ?_ }
    intro p obj hobj
    rw [hposition]
    exact ⟨le_trans (le_snapPos hobj) h.traced.start, (h.traced.objects p obj hobj).2⟩
  have hbelow : rebuilt.Below s.volume.nextInode := by
    refine ⟨?_, ?_⟩
    · intro ino row hlookup
      rw [hmax]
      exact rebuilt.maxOk_countMaxIno ino row hlookup
    · rw [hmax]
      refine countMaxIno_lt (lt_of_lt_of_le (by decide) h.next) ?_
      intro ino row hlookup
      by_cases hroot : ino = rootIno
      · rw [hroot]
        exact lt_of_lt_of_le (by decide) h.next
      · -- the row is that of the replay
        have hstart : s.volume.recoverFrom.index.rows.lookup (.inode ino) =
            s.volume.rebuildFrom.index.rows.lookup (.inode ino) := by
          rw [s.volume.lookup_rebuildFrom, if_neg fun hkey => hroot (RowKey.inode.inj hkey.2)]
        rw [← hagree _ (.inl hstart)] at hlookup
        exact lt_of_le_of_lt (h.replay.1 ino row hlookup) h.replay.2
  exact ⟨rebuilt, htraced, hbelow, h.replay, h.objects, h.next, h.allocated, h.nodup,
    fun hsettled => absurd hsettled (by simp)⟩

theorem Index.maxIno_orphanChanges (rows : Rows) {numbered : List (Nat × RowChange)}
    (hmap : numbered.map Prod.snd = orphanChanges rows) : (idx.applyChanges numbered).maxIno = idx.maxIno := by
  have hwrites : WritesBelow (idx.maxIno + 1) (numbered.map Prod.snd) := by
    intro c hc ino _ hrow
    rw [hmap] at hc
    exact absurd (mem_orphanChanges hc).1 hrow
  have hlt := foldl_maxIno_lt _ hwrites (Nat.lt_succ_self _)
  have hle := le_foldl_maxIno (numbered.map Prod.snd) idx
  show ((numbered.map Prod.snd).foldl applyChange idx).maxIno = idx.maxIno
  omega

theorem MetaVolume.lt_initNextInode (v : MetaVolume) (highest : Nat) :
    v.liveMaxIno < (v.initNextInode highest).nextInode := by
  unfold initNextInode
  simp only
  split <;> omega

theorem Traced.cleanOrphanInodes {v : MetaVolume} (h : Traced v idx r) (hidx : MaxOk idx) (hr : MaxOk r.index)
    (hlive : v.liveMaxIno = idx.maxIno) :
    ∃ idx' r', Traced (v.cleanOrphanInodes idx) idx' r' ∧ (MaxOk idx' ∧ idx'.maxIno = idx.maxIno) ∧
      (MaxOk r'.index ∧ r'.index.maxIno = r.index.maxIno) ∧ (v.cleanOrphanInodes idx).liveMaxIno = idx.maxIno ∧
      (v.cleanOrphanInodes idx).objects = v.objects := by
  unfold MetaVolume.cleanOrphanInodes
  split
  · exact ⟨idx, r, h, ⟨hidx, rfl⟩, ⟨hr, rfl⟩, hlive, rfl⟩
  have hmap := v.map_snd_numberedTx (orphanChanges idx.rows)
  have hmap' := TxLog.numbered_map_snd (orphanChanges idx.rows) v.stream.length
  refine ⟨_, _, h.commitTx _, ⟨maxOk_foldl _ hidx, maxIno_orphanChanges idx.rows hmap⟩,
    ⟨maxOk_foldl _ hr, maxIno_orphanChanges idx.rows hmap'⟩, ?_, rfl⟩
  show (applyChanges { idx with maxIno := v.liveMaxIno } (v.numberedTx _)).maxIno = idx.maxIno
  rw [maxIno_orphanChanges idx.rows hmap, hlive]

theorem Numbered.initNextInode {v : MetaVolume} (htraced : Traced v idx r) (hidx : MaxOk idx) (hr : MaxOk r.index)
    (hlive : v.liveMaxIno = idx.maxIno) (hle : r.index.maxIno ≤ idx.maxIno)
    (hobjects : ∀ p obj, v.objects.lookup p = some obj → MaxOk obj)
    (hcovers : NumberState.Covers { s with volume := v } r.index.maxIno) (hnodup : s.allocated.Nodup) (highest : Nat) :
    Numbered { s with volume := v.initNextInode highest } idx r := by
  have hnext : idx.maxIno < (v.initNextInode highest).nextInode := by
    rw [← hlive]
    exact v.lt_initNextInode highest
  constructor
  case traced => exact htraced.of_eq rfl rfl htraced.view htraced.pointers
  case live => exact ⟨hidx, hnext⟩
  case replay => exact ⟨hr, lt_of_le_of_lt hle hnext⟩
  case objects =>
    intro p obj hobj
    exact ⟨hobjects p obj hobj, lt_of_le_of_lt (le_trans (hcovers.2 p obj hobj) hle) hnext⟩
  case next => exact le_max_right _ _
  case allocated => exact fun n hn => lt_of_le_of_lt (le_trans (hcovers.1 n hn) hle) hnext
  case nodup => exact hnodup
  case settled => exact fun _ => ⟨hcovers.mono hle, hcovers⟩

theorem Numbered.restart (h : Numbered s idx r) (hsettled : s.replaced = false) {v : MetaVolume}
    (hv : s.volume.restart = some v) : ∃ idx' r', Numbered { s with volume := v } idx' r' := by
  unfold MetaVolume.restart at hv
  rw [h.traced.recover, map_some] at hv
  obtain rfl := some.inj hv
  have hroot : MaxOk (s.volume.addRoot r.index) ∧ r.index.maxIno ≤ (s.volume.addRoot r.index).maxIno := by
    unfold addRoot
    split
    · exact ⟨maxOk_foldl _ h.replay.1, le_foldl_maxIno _ r.index⟩
    · exact ⟨h.replay.1, le_rfl⟩
  obtain ⟨idx', r', htraced, ⟨hmax, hidx⟩, ⟨hmax', hr⟩, hlive, hobjects⟩ :=
    h.traced.load.cleanOrphanInodes hroot.1 h.replay.1 rfl
  have hsame : ((s.volume.load { r with index := s.volume.addRoot r.index }).cleanOrphanInodes
      (s.volume.addRoot r.index)).objects = s.volume.objects := hobjects
  generalize (s.volume.load { r with index := s.volume.addRoot r.index }).cleanOrphanInodes (s.volume.addRoot r.index) =
    cleaned at htraced hlive hsame ⊢
  obtain ⟨hused, hold⟩ := (h.settled hsettled).2
  refine ⟨idx', r', Numbered.initNextInode htraced hmax hmax' (hlive.trans hidx.symm) (by rw [hidx, hr]; exact hroot.2)
    ?_ ?_ h.nodup _⟩
  · rw [hsame]
    exact fun p obj hobj => (h.objects p obj hobj).1
  · rw [hr]
    refine ⟨hused, ?_⟩
    rwa [hsame]

theorem Numbered.step (h : Numbered s idx r) {e : NumberEvent} (hsettled : s.Settled e) (hstep : s.step e = some s') :
    ∃ idx' r', Numbered s' idx' r' := by
  cases e with
  | commit changes =>
    obtain ⟨v, hv, rfl⟩ := map_eq_some_iff.mp hstep
    obtain ⟨hall, rfl⟩ := of_checked h.traced.view hv
    exact ⟨_, _, h.commitTx (h.writesBelow hall)⟩
  | create row rest =>
    obtain ⟨v, hv, rfl⟩ := map_eq_some_iff.mp hstep
    obtain ⟨hall, rfl⟩ := of_checked h.traced.view hv
    exact h.createInode row hall
  | append =>
    rw [← some.inj hstep]
    have hidle : idle .other = true := rfl
    obtain ⟨r', htraced, hindex⟩ := h.traced.appendIdle hidle fun ptr heq => absurd heq (by simp)
    exact ⟨idx, r', h.of_traced htraced hindex rfl le_rfl⟩
  | createSnapshot name =>
    obtain ⟨v, hv, rfl⟩ := map_eq_some_iff.mp hstep
    obtain ⟨result, hresult, rfl⟩ := map_eq_some_iff.mp hv
    obtain ⟨r', hr'⟩ := h.createSnapshot result hresult
    exact ⟨idx, r', hr'⟩
  | restoreSnapshot name =>
    rw [← some.inj hstep]
    cases hfind : s.volume.findSnapshot name with
    | none =>
      rw [s.volume.restoreSnapshot_notFound hfind, isSome_none, Bool.or_false]
      exact ⟨idx, r, h.of_traced (h.traced.of_eq rfl rfl h.traced.view h.traced.pointers) rfl rfl le_rfl⟩
    | some target =>
      rw [isSome_some, Bool.or_true]
      exact h.restoreSnapshot hfind
  | rebuild =>
    obtain ⟨v, hv, rfl⟩ := map_eq_some_iff.mp hstep
    obtain ⟨idx', hidx'⟩ := h.rebuild hv
    exact ⟨idx', r, hidx'⟩
  | restart =>
    obtain ⟨v, hv, rfl⟩ := map_eq_some_iff.mp hstep
    exact h.restart hsettled hv

end Steps

/-! Runs. -/

/-- A new volume, or a clone of a snapshot whose statistics cover its rows. -/
inductive NumberState.Start : NumberState → Prop
  | create (streamID : Name) : Start { volume := .create streamID }
  | clone (streamID : Name) {source : Index} (hmax : MaxOk source) : Start { volume := .initFromSnapshot streamID source }

theorem Numbered.create (streamID : Name) : ∃ idx r, Numbered { volume := .create streamID } idx r := by
  have hempty : MaxOk {} := fun ino row hlookup => absurd hlookup (by simp)
  refine ⟨_, _, Traced.create streamID, ⟨maxOk_foldl _ hempty, ?_⟩, ⟨hempty, ?_⟩, ?_, le_rfl, ?_, nodup_nil, ?_⟩
  · show (1 : Nat) < 8
    decide
  · show (0 : Nat) < 8
    decide
  · exact fun p obj hobj => absurd hobj (by simp [MetaVolume.create])
  · exact fun _ hn => absurd hn not_mem_nil
  · have hcovers : ∀ bound, NumberState.Covers { volume := .create streamID } bound := fun bound =>
      ⟨fun _ hn => absurd hn not_mem_nil, fun p obj hobj => absurd hobj (by simp [MetaVolume.create])⟩
    exact fun _ => ⟨hcovers _, hcovers _⟩

theorem Numbered.clone (streamID : Name) {source : Index} (hmax : MaxOk source) :
    ∃ idx r, Numbered { volume := .initFromSnapshot streamID source } idx r := by
  obtain ⟨r, htraced, hindex⟩ := Traced.initFromSnapshot streamID source
  have hcloned : Traced (cloned streamID source) { source with position := 0 } r :=
    htraced.of_eq rfl rfl htraced.view htraced.pointers
  refine ⟨_, r, Numbered.initNextInode (s := { volume := .cloned streamID source }) hcloned hmax ?_ rfl ?_ ?_ ?_
    nodup_nil 0⟩
  · rwa [hindex]
  · rw [hindex]
  · intro p obj hobj
    rwa [(initFromSnapshot_objects streamID hobj).2]
  · refine ⟨nofun, ?_⟩
    intro p obj hobj
    rw [(initFromSnapshot_objects streamID hobj).2, hindex]

theorem NumberState.Start.numbered {s : NumberState} (h : s.Start) : ∃ idx r, Numbered s idx r := by
  cases h with
  | create streamID => exact Numbered.create streamID
  | clone streamID hmax => exact Numbered.clone streamID hmax

/-- **Inode numbers are not used again.** Along every run without a restart between a
restore or a rebuild and the next creation. -/
theorem inode_numbers_distinct {s : NumberState} (h : s.Start) {events : List NumberEvent}
    (hrun : Allowed NumberState.step NumberState.Settled s events) :
    Throughout NumberState.step NumberState.Distinct s events := by
  have hdistinct (s) (hs : ∃ idx r, Numbered s idx r) : s.Distinct := by
    obtain ⟨idx, r, hr⟩ := hs
    exact hr.nodup
  have hkept (s e s') (hs : ∃ idx r, Numbered s idx r) (hsettled : s.Settled e) (hstep : s.step e = some s') : ∃ idx r,
      Numbered s' idx r := by
    obtain ⟨idx, r, hr⟩ := hs
    exact hr.step hsettled hstep
  exact Allowed.throughout hdistinct hkept h.numbered hrun

/-- A file is made between a restore and the next restart. -/
theorem inode_numbers_distinct_restored :
    let file : InodeRow := { isDir := false, mode := 0o644, nlink := 1 }
    let run : List NumberEvent :=
      [.create file [], .createSnapshot [115], .create file [], .restoreSnapshot [115], .create file [], .restart,
        .create file []]
    (exec NumberState.step { volume := .create [118] } run).map (·.allocated) = some [40, 32, 16, 8] ∧
      Throughout NumberState.step NumberState.Distinct { volume := .create [118] } run :=
  ⟨by decide +kernel, inode_numbers_distinct (.create [118]) (by decide +kernel)⟩

/-- The volume is loaded again right after a restore: the second file and the third have
one number. -/
theorem inode_number_reused :
    let file : InodeRow := { isDir := false, mode := 0o644, nlink := 1 }
    let run : List NumberEvent :=
      [.create file [], .createSnapshot [115], .create file [], .restoreSnapshot [115], .restart, .create file []]
    (exec NumberState.step { volume := .create [118] } run).map (·.allocated) = some [16, 16, 8] ∧
      ¬ Throughout NumberState.step NumberState.Distinct { volume := .create [118] } run := by
  intro file run
  have hallocated : (exec NumberState.step { volume := .create [118] } run).map (·.allocated) = some [16, 16, 8] := by
    decide +kernel
  refine ⟨hallocated, fun h => ?_⟩
  obtain ⟨s, hexec, hs⟩ := map_eq_some_iff.mp hallocated
  have hlast : s.allocated.Nodup := h.last hexec
  rw [hs] at hlast
  exact absurd hlast (by decide)

end InClusterStorage.Controller
