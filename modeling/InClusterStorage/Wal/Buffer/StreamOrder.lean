import InClusterStorage.Wal.Buffer.StreamLocation

/- The order of a stream's records over its files. Where every committed record lies
   above all that is sealed, the files of a stream are consecutive pieces of its
   commit order: the sealed files in the order of the writer's list, then the
   open file, then the queue. Commits, flushes, seals and discoveries keep this
   (`Ordered`), and with it the names of the files stay apart and ascend. -/
namespace InClusterStorage.Wal.Buffer

open List Files StreamWriter Buffer.Stream

/-- The names in the writer's list of sealed files. -/
def StreamWriter.names (w : StreamWriter) : List (Nat × Nat) :=
  w.sealed.map fun m => (m.fromSeq, m.toSeq)

/-- The records of the files with the given names, one file after the other. -/
def Files.recordsOf (f : Files) (names : List (Nat × Nat)) : List LogRecord :=
  names.flatMap fun n => f.records (.sealed n.1 n.2)

/-- The sealed, the open and the queued records are the committed ones, in order. -/
structure Ordered (s : Stream) (committed : List LogRecord) : Prop extends OpenFile s where
  pos : ∀ r ∈ committed, 0 < r.streamSeq
  split : committed = s.dir.recordsOf s.w.names ++ s.unsealed
  path : ∀ m ∈ s.w.sealed, m.path = some m.name
  range : ∀ n ∈ s.w.names, n.1 ≤ n.2 ∧ ∀ r ∈ s.dir.records (.sealed n.1 n.2), r.streamSeq ≤ n.2
  ascending : s.w.names.Pairwise fun a b => a.2 < b.1
  above : ∀ n ∈ s.w.names, ∀ r ∈ s.unsealed, n.2 < r.streamSeq
  above_open : s.w.recCount ≠ 0 → (∀ n ∈ s.w.names, n.2 < s.w.openFrom) ∧ s.w.openFrom ≤ s.w.lastSeq
  open_le : ∀ r ∈ s.dir.records (.opened s.w.openFrom), r.streamSeq ≤ s.w.lastSeq
  open_ne_nil : s.w.recCount ≠ 0 → s.dir.records (.opened s.w.openFrom) ≠ []
  sealed_ne_nil : ∀ n ∈ s.w.names, s.dir.records (.sealed n.1 n.2) ≠ []
  dir_names : ∀ a b, StreamFileName.sealed a b ∈ s.dir → (a, b) ∈ s.w.names
  object_names : ∀ a b, StreamFileName.sealed a b ∈ s.objects → (a, b) ∈ s.w.names

theorem ordered_new : Ordered {} [] := by
  have hnot (n : StreamFileName) : n ∉ (∅ : Files) := AList.notMem_empty n
  constructor
  case toOpenFile => exact ⟨rfl, fun f hf => absurd hf (hnot _), fun h => absurd rfl h⟩
  case dir_names => exact fun a b h => absurd h (hnot _)
  case object_names => exact fun a b h => absurd h (hnot _)
  case split => rfl
  case open_le =>
    intro r hr
    rw [records_eq_nil (hnot _)] at hr
    simp at hr
  all_goals simp [names]

theorem Files.recordsOf_append (f : Files) (names names' : List (Nat × Nat)) :
    f.recordsOf (names ++ names') = f.recordsOf names ++ f.recordsOf names' :=
  flatMap_append

theorem Files.recordsOf_congr {f f' : Files} {names : List (Nat × Nat)}
    (h : ∀ n ∈ names, f'.records (.sealed n.1 n.2) = f.records (.sealed n.1 n.2)) :
    f'.recordsOf names = f.recordsOf names :=
  flatMap_congr h

variable {committed : List LogRecord} {s : Stream}

section

variable (hi : Ordered s committed)
include hi

theorem ordered_commit {records : List LogRecord}
    (h : ∀ r ∈ records, 0 < r.streamSeq ∧ ∀ n ∈ s.w.names, n.2 < r.streamSeq) :
    Ordered (appendRecords records s).1 (committed ++ records) := by
  have hs : (appendRecords records s).1 = { s with w := { s.w with pending := s.w.pending ++ records } } := by
    simp [appendRecords, hi.live]
  rw [hs]
  refine { hi with pos := ?_, split := ?_, above := ?_ }
  · exact forall_mem_append.2 ⟨hi.pos, fun r hr => (h r hr).1⟩
  · rw [hi.split]
    simp [unsealed, names]
  · intro n hn
    rw [unsealed, ← append_assoc]
    exact forall_mem_append.2 ⟨hi.above n hn, fun r hr => (h r hr).2 n hn⟩

omit hi in
@[simp] theorem names_flush (s : Stream) : (flushPendingLocked s).w.names = s.w.names := by
  rw [names, flush_sealed, names]

theorem ordered_flush : Ordered (flushPendingLocked s) committed := by
  have hopen := hi.toOpenFile
  have hlast := flush_lastSeq s
  have hpend (r) (hr : r ∈ s.w.pending) : r ∈ s.unsealed := mem_append_right _ hr
  have hle (r) (hr : r ∈ s.unsealed) : r.streamSeq ≤ (flushPendingLocked s).w.lastSeq := by
    rcases mem_append.1 hr with hr | hr
    · exact (hi.open_le r hr).trans hlast.1
    · exact hlast.2 r hr
  constructor
  · refine hopen.flush fun r hr => hi.pos r ?_
    rw [hi.split]
    exact mem_append_right _ (hpend r hr)
  · exact hi.pos
  · rw [names_flush, hopen.unsealed_flush, recordsOf_congr fun n _ => flush_records_sealed s n.1 n.2]
    exact hi.split
  · rw [flush_sealed]; exact hi.path
  · simp only [names_flush, flush_records_sealed]; exact hi.range
  · rw [names_flush]; exact hi.ascending
  · rw [names_flush, hopen.unsealed_flush]; exact hi.above
  · -- the file is opened at its first record
    intro hc
    rw [names_flush]
    cases hp : s.w.pending with
    | nil => rw [flush_nil hp] at hc ⊢; exact hi.above_open hc
    | cons first rest =>
      have hfrom : (flushPendingLocked s).w.openFrom = s.w.flushFrom first := by
        rw [flush_cons hp]; exact (wrote_notedAs s.w first s.w.pending).openFrom
      have hfirst : first ∈ s.w.pending := by rw [hp]; exact mem_cons_self
      rw [hfrom, flushFrom]
      split_ifs with h0 hz
      · exact ⟨fun n hn => hi.above n hn first (hpend first hfirst), hlast.2 first hfirst⟩
      · exact absurd hz (hi.open_ne_zero h0)
      · exact ⟨(hi.above_open h0).1, (hi.above_open h0).2.trans hlast.1⟩
  · rw [hopen.records_flush]; exact hle
  · intro hc
    rw [hopen.records_flush, unsealed]
    by_cases h0 : s.w.recCount = 0
    · refine append_ne_nil_of_right_ne_nil _ ?_
      rintro hp
      rw [flush_recCount, h0, hp] at hc
      exact hc rfl
    · exact append_ne_nil_of_left_ne_nil (hi.open_ne_nil h0) _
  · simp only [names_flush, flush_records_sealed]; exact hi.sealed_ne_nil
  · intro a b hab; rw [names_flush]; exact hi.dir_names a b ((flush_mem_sealed s a b).1 hab)
  · rw [names_flush, flush_objects]; exact hi.object_names

omit hi in
@[simp] theorem names_afterRename (data : List LogRecord) (s : Stream) :
    (afterRename data s).w.names = s.w.names ++ [(s.w.openFrom, s.w.lastSeq)] := by
  simp [names, afterRename, sealedMeta]

/-- The new name ends above all others, so the other files stay as they are. -/
theorem Ordered.records_afterRename (hc : s.w.recCount ≠ 0) (data : List LogRecord) {n : Nat × Nat}
    (hn : n ∈ s.w.names) : (afterRename data s).dir.records (.sealed n.1 n.2) = s.dir.records (.sealed n.1 n.2) := by
  rw [Buffer.records_afterRename, if_neg]
  rintro ⟨-, h⟩
  obtain ⟨habove, hle⟩ := hi.above_open hc
  have := habove n hn
  omega

theorem ordered_rename (hp : s.w.pending = []) (hc : s.w.recCount ≠ 0) {data : List LogRecord}
    (hd : s.dir.lookup (.opened s.w.openFrom) = some data) : Ordered (afterRename data s) committed := by
  have hopen := hi.toOpenFile
  have hdata : s.unsealed = data := by
    rw [unsealed, hp, append_nil, records, hd, Option.getD_some]
  have hun : (afterRename data s).unsealed = [] := (hopen.unsealed_afterRename data).trans hp
  have hnames := names_afterRename data s
  obtain ⟨habove, hle⟩ := hi.above_open hc
  have hold (n) (hn : n ∈ s.w.names) : (afterRename data s).dir.records (.sealed n.1 n.2) =
      s.dir.records (.sealed n.1 n.2) := hi.records_afterRename hc data hn
  have hnew : (afterRename data s).dir.records (.sealed s.w.openFrom s.w.lastSeq) = data := by
    rw [Buffer.records_afterRename, if_pos ⟨rfl, rfl⟩]
  constructor
  · exact hopen.afterRename data
  · exact hi.pos
  · rw [hnames, recordsOf_append, recordsOf_congr hold, hun, hi.split, hdata]
    simp [recordsOf, hnew]
  · intro m hm
    rcases mem_append.1 hm with hm | hm
    · exact hi.path m hm
    · rw [mem_singleton.1 hm]; rfl
  · intro n hn
    rw [hnames] at hn
    rcases mem_append.1 hn with hn | hn
    · rw [hold n hn]; exact hi.range n hn
    · rw [mem_singleton.1 hn, hnew]
      refine ⟨hle, fun r hr => hi.open_le r ?_⟩
      rwa [records, hd, Option.getD_some]
  · rw [hnames, pairwise_append]
    refine ⟨hi.ascending, pairwise_singleton _ _, fun n hn n' hn' => ?_⟩
    rw [mem_singleton.1 hn']
    exact habove n hn
  · simp [hun]
  · exact fun h => absurd rfl h
  · intro r hr
    exact absurd (mem_of_records (mem_seqs_of_mem hr)) (hopen.not_mem_afterRename data _)
  · exact fun h => absurd rfl h
  · intro n hn
    rw [hnames] at hn
    rcases mem_append.1 hn with hn | hn
    · rw [hold n hn]; exact hi.sealed_ne_nil n hn
    · rw [mem_singleton.1 hn, hnew]
      have := hi.open_ne_nil hc
      rwa [records, hd, Option.getD_some] at this
  · intro a b hab
    rw [hnames]
    rcases mem_afterRename.1 hab with ⟨rfl, rfl⟩ | hab
    · exact mem_append_right _ mem_cons_self
    · exact mem_append_left _ (hi.dir_names a b hab)
  · intro a b hab
    rw [hnames]
    exact mem_append_left _ (hi.object_names a b hab)

/-- A stream that only learns of its sealed files, or uploads some, keeps its order. -/
theorem Ordered.learned {s' : Stream} {ends : List Nat} (h : LearnedAs ends s.w s'.w) (hdir : s'.dir = s.dir)
    (hnames : s'.w.names = s.w.names) (hpath : ∀ m ∈ s'.w.sealed, m.path = some m.name)
    (hobj : ∀ a b, StreamFileName.sealed a b ∈ s'.objects → (a, b) ∈ s.w.names) : Ordered s' committed := by
  have hun : s'.unsealed = s.unsealed := by
    rw [unsealed, unsealed, hdir, h.openFrom, h.pending]
  constructor
  · exact h.openFile hdir hi.toOpenFile
  · exact hi.pos
  · rw [hdir, hnames, hun]; exact hi.split
  · exact hpath
  · rw [hdir, hnames]; exact hi.range
  · rw [hnames]; exact hi.ascending
  · rw [hnames, hun]; exact hi.above
  · rw [hnames, h.openFrom, h.recCount]
    exact fun hc => ⟨(hi.above_open hc).1, (hi.above_open hc).2.trans h.lastSeq_le⟩
  · rw [hdir, h.openFrom]
    exact fun r hr => (hi.open_le r hr).trans h.lastSeq_le
  · rw [hdir, h.openFrom, h.recCount]; exact hi.open_ne_nil
  · rw [hdir, hnames]; exact hi.sealed_ne_nil
  · rw [hdir, hnames]; exact hi.dir_names
  · rw [hnames]; exact hobj

end

theorem sealed_put (m : StreamMeta) (data : List LogRecord) (i : Nat) (s : Stream) :
    ((afterPut m data s).setMeta i { m with key := some m.name }).w.sealed =
      s.w.sealed.set i { m with key := some m.name } := by
  simp only [setMeta, afterPut]
  split <;> rfl

@[simp] theorem names_uploadAt (putOk : Bool) (i : Nat) (s : Stream) : (uploadAt putOk i s).w.names = s.w.names := by
  rcases uploadAt_cases putOk i s with he | ⟨m, p, data, -, hm, -, -, -, he⟩
  · rw [he]
  rw [he]
  obtain ⟨hlt, rfl⟩ := List.getElem?_eq_some_iff.1 hm
  rw [names, sealed_put, map_set, names]
  refine ext_getElem (by simp) fun j hj _ => ?_
  rw [getElem_set]
  split
  · next h => subst h; simp
  · rfl

@[simp] theorem dir_uploadAt (putOk : Bool) (i : Nat) (s : Stream) : (uploadAt putOk i s).dir = s.dir := by
  rcases uploadAt_cases putOk i s with he | ⟨m, p, data, -, -, -, -, -, he⟩ <;> rw [he]
  rfl

theorem ordered_uploadAt (hi : Ordered s committed)
    (putOk : Bool) (i : Nat) : Ordered (uploadAt putOk i s) committed := by
  have hnames := names_uploadAt putOk i s
  rcases uploadAt_cases putOk i s with he | ⟨m, p, data, -, hm, -, -, -, he⟩
  · rwa [he]
  rw [he] at hnames ⊢
  have hmem : m ∈ s.w.sealed := mem_of_getElem? hm
  refine hi.learned (learnedAs_put s hmem data) rfl hnames ?_ ?_
  · intro m' hm'
    rw [sealed_put] at hm'
    rcases mem_or_eq_of_mem_set hm' with hm' | rfl
    · exact hi.path m' hm'
    · exact hi.path m hmem
  · intro a b hab
    rcases mem_of_mem_insert hab with hab | hab
    · obtain ⟨rfl, rfl⟩ := StreamFileName.sealed.inj hab
      exact mem_map.2 ⟨m, hmem, rfl⟩
    · exact hi.object_names a b hab

/-- Noting a file that is in the list changes no name. -/
theorem map_noteMeta {new : StreamMeta} {f : StreamMeta → StreamMeta}
    (hf : ∀ sm, (f sm).fromSeq = sm.fromSeq ∧ (f sm).toSeq = sm.toSeq) {metas : List StreamMeta}
    (hmem : (new.fromSeq, new.toSeq) ∈ metas.map fun m => (m.fromSeq, m.toSeq)) :
    (noteMeta new f metas).map (fun m => (m.fromSeq, m.toSeq)) = metas.map fun m => (m.fromSeq, m.toSeq) := by
  induction metas with
  | nil => simp at hmem
  | cons sm rest ih =>
    rw [noteMeta]
    split
    · rw [map_cons, map_cons, (hf sm).1, (hf sm).2]
    · next hne =>
      rw [map_cons, map_cons, ih]
      rw [map_cons, mem_cons] at hmem
      refine hmem.resolve_left fun h => hne ?_
      exact ⟨(Prod.mk.inj h).1.symm, (Prod.mk.inj h).2.symm⟩

/-- A step of a discovery that finds only known files. -/
structure KeepsNames (w w' : StreamWriter) : Prop where
  names : w'.names = w.names
  path : (∀ m ∈ w.sealed, m.path = some m.name) → ∀ m ∈ w'.sealed, m.path = some m.name

theorem keepsNames_foldl {note : StreamWriter → StreamFileName → StreamWriter} (known : List (Nat × Nat))
    (hnote : ∀ w n, w.names = known → (∀ a b, n = .sealed a b → (a, b) ∈ known) → KeepsNames w (note w n)) :
    ∀ (ns : List StreamFileName) {w : StreamWriter}, w.names = known →
      (∀ a b, StreamFileName.sealed a b ∈ ns → (a, b) ∈ known) → KeepsNames w (ns.foldl note w) := by
  intro ns
  induction ns with
  | nil => intro w _ _; exact ⟨rfl, id⟩
  | cons n ns ih =>
    intro w hw hns
    have h1 := hnote w n hw fun a b h => hns a b (h ▸ mem_cons_self)
    have h2 := ih (h1.names.trans hw) fun a b h => hns a b (mem_cons_of_mem _ h)
    exact ⟨h2.names.trans h1.names, fun hp => h2.path (h1.path hp)⟩

section

variable {known : List (Nat × Nat)} (w : StreamWriter) (n : StreamFileName) (hw : w.names = known)
  (hn : ∀ a b, n = .sealed a b → (a, b) ∈ known)
include hw hn

theorem keepsNames_noteLocal : KeepsNames w (noteLocal w n) := by
  cases n with
  | opened f => exact ⟨rfl, id⟩
  | sealed a b =>
    have hmem : (a, b) ∈ w.names := hw ▸ hn a b rfl
    refine ⟨map_noteMeta (fun sm => by split <;> exact ⟨rfl, rfl⟩) hmem, fun hp m hm => ?_⟩
    rcases mem_noteMeta hm with hm | ⟨rfl, -⟩ | ⟨sm, hsm, hnone, -⟩
    · exact hp m hm
    · rfl
    · cases hnone.symm.trans (hp sm hsm)

theorem keepsNames_noteRemote : KeepsNames w (noteRemote w n) := by
  cases n with
  | opened f => exact ⟨rfl, id⟩
  | sealed a b =>
    have hmem : (a, b) ∈ w.names := hw ▸ hn a b rfl
    refine ⟨map_noteMeta (fun sm => by split <;> exact ⟨rfl, rfl⟩) hmem, fun hp m hm => ?_⟩
    rcases mem_noteMeta hm with hm | ⟨-, hnot⟩ | ⟨sm, hsm, -, -, -, rfl⟩
    · exact hp m hm
    · obtain ⟨sm, hsm, heq⟩ := mem_map.1 hmem
      exact absurd ⟨(Prod.mk.inj heq).1, (Prod.mk.inj heq).2⟩ (hnot sm hsm)
    · exact hp sm hsm

end

theorem ordered_discover (hi : Ordered s committed)
    (listOk : Bool) :
    Ordered (discoverRemoteSealedLocked listOk s) committed ∧
      (discoverRemoteSealedLocked listOk s).w.names = s.w.names := by
  have hlocal := keepsNames_foldl s.w.names keepsNames_noteLocal s.dir.listing rfl
    fun a b h => hi.dir_names a b (mem_listing.1 h)
  have hremote := keepsNames_foldl s.w.names keepsNames_noteRemote s.objects.listing
    hlocal.names fun a b h => hi.object_names a b (mem_listing.1 h)
  have hkeeps : KeepsNames s.w (discoverRemoteSealedLocked listOk s).w := by
    unfold discoverRemoteSealedLocked
    cases listOk with
    | false => exact hlocal
    | true =>
      have hnames := hremote.names.trans hlocal.names
      -- the names ascend, so the sort leaves the list as it is
      have hsorted : (s.objects.listing.foldl noteRemote (s.dir.listing.foldl noteLocal s.w)).sealed.Pairwise
          fun a b => a.fromSeq ≤ b.fromSeq := by
        have hasc := hi.ascending
        rw [← hnames, names, pairwise_map] at hasc
        refine hasc.imp_of_mem fun {a b} ha _ hab => ?_
        have hrange := hi.range (a.fromSeq, a.toSeq) (hnames ▸ mem_map.2 ⟨a, ha, rfl⟩)
        omega
      have hsort := hsorted.insertionSort_eq
      refine ⟨?_, fun hp m hm => ?_⟩
      · simp only [names, if_true] at hnames ⊢
        rw [hsort, hnames]
      · simp only [if_true, hsort] at hm
        exact hremote.path (hlocal.path hp) m hm
  have hfiles : (discoverRemoteSealedLocked listOk s).dir = s.dir ∧
      (discoverRemoteSealedLocked listOk s).objects = s.objects := by
    unfold discoverRemoteSealedLocked
    split <;> exact ⟨rfl, rfl⟩
  refine ⟨hi.learned (learnedAs_discover listOk s) hfiles.1 hkeeps.names (hkeeps.path hi.path) ?_, hkeeps.names⟩
  rw [hfiles.2]
  exact hi.object_names

end InClusterStorage.Wal.Buffer
