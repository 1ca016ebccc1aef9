import InClusterStorage.Wal.Buffer.StreamWriter

/- Where the records of a stream are. A committed record is first in the queue or
   in the open file, then in a sealed file of the directory, then in an object.
   `uploadedTo` is the end of some object, so what may be concluded from it is
   what is known about every record below the end of an object.

   `StreamInv` says that below the end of an object nothing waits: a committed
   record that is not in an object lies above the ends of all objects. Appends,
   seals and uploads keep this under the conditions stated here, each on the
   state before the step; flushes and discoveries always do. -/
namespace InClusterStorage.Wal.Buffer

open StreamFileName List Option Files Buffer.Stream AList

/-! The conditions on the steps. -/

/-- The record lies above everything sealed of the stream, or repeats a sequence
number of a sealed file or object. -/
def AppendsAbove (s : Stream) (r : LogRecord) : Prop :=
  (∀ e ∈ s.dir.ends ++ s.objects.ends, e < r.streamSeq) ∨ r.streamSeq ∈ s.dir.sealedSeqs ++ s.objects.sealedSeqs

/-- Every other sealed file that ends no later is uploaded already. -/
def UploadsInOrder (s : Stream) (m : StreamMeta) : Prop :=
  ∀ n ∈ s.dir.sealedNames, n.2 ≤ m.toSeq → n ≠ (m.fromSeq, m.toSeq) → sealed n.1 n.2 ∈ s.objects

/-- The open file holds every sequence number of the file or object that has
already the name it will be sealed under. -/
def ReplacesPart (s : Stream) : Prop :=
  ∀ q ∈ seqs (s.dir.records (.sealed s.w.openFrom s.w.lastSeq)) ++
      seqs (s.objects.records (.sealed s.w.openFrom s.w.lastSeq)),
    q ∈ seqs (s.dir.records (.opened s.w.openFrom))

/-- What a seal of `s` must satisfy if it renames the open file. -/
def SealsInOrder (putOk : Bool) (s : Stream) : Prop :=
  match renameOpen (flushPendingLocked s) with
  | none => True
  | some s' => ReplacesPart (flushPendingLocked s) ∧
      (putOk = true → UploadsInOrder s' (sealedMeta (flushPendingLocked s).w))

/-- What an upload of the `i`-th sealed file must satisfy if it is made and succeeds. -/
def UploadsAtInOrder (putOk : Bool) (i : Nat) (s : Stream) : Prop :=
  match s.w.sealed[i]? with
  | none => True
  | some m => putOk = true → m.key = none → UploadsInOrder s m

instance (s : Stream) (r : LogRecord) : Decidable (AppendsAbove s r) :=
  inferInstanceAs (Decidable (_ ∨ _))

instance (s : Stream) (m : StreamMeta) : Decidable (UploadsInOrder s m) :=
  inferInstanceAs (Decidable (∀ n ∈ s.dir.sealedNames, _))

instance (s : Stream) : Decidable (ReplacesPart s) := inferInstanceAs (Decidable (∀ q ∈ _, _))

instance (putOk : Bool) (s : Stream) : Decidable (SealsInOrder putOk s) :=
  match h : renameOpen (flushPendingLocked s) with
  | none => isTrue (by simp only [SealsInOrder, h])
  | some s' => decidable_of_iff (ReplacesPart (flushPendingLocked s) ∧
      (putOk = true → UploadsInOrder s' (sealedMeta (flushPendingLocked s).w)))
      (by simp only [SealsInOrder, h])

instance (putOk : Bool) (i : Nat) (s : Stream) : Decidable (UploadsAtInOrder putOk i s) :=
  match h : s.w.sealed[i]? with
  | none => isTrue (by simp only [UploadsAtInOrder, h])
  | some m => decidable_of_iff (putOk = true → m.key = none → UploadsInOrder s m)
      (by simp only [UploadsAtInOrder, h])

/-! The invariant of one stream. -/

/-- Where a committed sequence number is. -/
inductive Located (s : Stream) (q : Nat) : Prop where
  /-- not sealed yet, and above everything that is -/
  | fresh (hq : q ∈ seqs s.unsealed) (habove : ∀ e ∈ s.dir.ends ++ s.objects.ends, e < q)
  /-- in an object -/
  | stored (hq : q ∈ s.objects.sealedSeqs)
  /-- in a sealed file of the directory; no object reaches it, and of the files
  that reach it this one ends first -/
  | sealedLocally (a b : Nat) (hq : q ∈ seqs (s.dir.records (.sealed a b))) (hle : q ≤ b)
      (habove : ∀ e ∈ s.objects.ends, e < q) (hfirst : ∀ e ∈ s.dir.ends, q ≤ e → b ≤ e)

/-- What holds of a stream and of the sequence numbers committed to it. -/
structure StreamInv (s : Stream) (committed : List Nat) : Prop extends OpenFile s where
  open_le : ∀ q ∈ seqs (s.dir.records (.opened s.w.openFrom)), q ≤ s.w.lastSeq
  ends_le : ∀ e ∈ s.dir.ends, e ≤ s.w.lastSeq
  committed_pos : ∀ q ∈ committed, 0 < q
  unsealed_committed : ∀ q ∈ seqs s.unsealed, q ∈ committed
  sealed_committed : ∀ q ∈ s.dir.sealedSeqs, q ∈ committed
  meta_path : ∀ m ∈ s.w.sealed, ∀ p, m.path = some p → p = m.name
  object_part : ∀ a b, sealed a b ∈ s.dir →
    ∀ q ∈ seqs (s.objects.records (.sealed a b)), q ∈ seqs (s.dir.records (.sealed a b))
  uploadedTo_end : s.w.uploadedTo = 0 ∨ s.w.uploadedTo ∈ s.objects.ends
  located : ∀ q ∈ committed, Located s q

theorem streamInv_new (objects : Files) : StreamInv { objects } [] := by
  have hnot (n : StreamFileName) : n ∉ (∅ : Files) := notMem_empty n
  refine ⟨⟨rfl, ?_, ?_⟩, ?_, ?_, ?_, ?_, ?_, ?_, ?_, .inl rfl, ?_⟩
  · intro f hf; exact absurd hf (hnot _)
  · intro h; exact absurd rfl h
  · intro q hq; exact absurd (mem_of_records hq) (hnot _)
  · intro e he
    obtain ⟨a, ha⟩ := mem_ends.1 he
    exact absurd ha (hnot _)
  · simp
  · intro q hq
    rw [unsealed, records_eq_nil (hnot _)] at hq
    simp at hq
  · intro q hq
    obtain ⟨a, b, hq⟩ := mem_sealedSeqs.1 hq
    exact absurd (mem_of_records hq) (hnot _)
  · simp
  · intro a b hab; exact absurd hab (hnot _)
  · simp

/-- Two streams with the same sealed files and objects. -/
structure SameSealed (s s' : Stream) : Prop where
  mem : ∀ a b, sealed a b ∈ s'.dir ↔ sealed a b ∈ s.dir
  records : ∀ a b, s'.dir.records (.sealed a b) = s.dir.records (.sealed a b)
  objects : s'.objects = s.objects

namespace SameSealed

variable {s s' : Stream} (h : SameSealed s s')
include h

theorem mem_ends {e : Nat} : e ∈ s'.dir.ends ↔ e ∈ s.dir.ends := by
  simp only [Files.mem_ends, h.mem]

theorem mem_sealedSeqs {q : Nat} : q ∈ s'.dir.sealedSeqs ↔ q ∈ s.dir.sealedSeqs := by
  simp only [Files.mem_sealedSeqs, h.records]

theorem located {q : Nat} (hu : q ∈ seqs s.unsealed → q ∈ seqs s'.unsealed) (hq : Located s q) : Located s' q := by
  cases hq with
  | fresh hq habove =>
    refine .fresh (hu hq) fun e he => habove e ?_
    simpa only [mem_append, h.mem_ends, h.objects] using he
  | stored hq => exact .stored (h.objects ▸ hq)
  | sealedLocally a b hq hle habove hfirst =>
    exact .sealedLocally a b (h.records a b ▸ hq) hle (h.objects ▸ habove) fun e he => hfirst e (h.mem_ends.1 he)

end SameSealed

variable {committed ends : List Nat} {s : Stream} {data : List LogRecord}

theorem streamInv_append (hi : StreamInv s committed) {records : List LogRecord} (hpos : ∀ r ∈ records, 0 < r.streamSeq)
    (habove : ∀ r ∈ records, AppendsAbove s r) : StreamInv (appendRecords records s).1 (committed ++ seqs records) := by
  have hs : (appendRecords records s).1 = { s with w := { s.w with pending := s.w.pending ++ records } } := by
    simp [appendRecords, hi.live]
  rw [hs]
  have same : SameSealed s { s with w := { s.w with pending := s.w.pending ++ records } } :=
    ⟨fun _ _ => Iff.rfl, fun _ _ => rfl, rfl⟩
  have hold : ∀ q ∈ committed, Located { s with w := { s.w with pending := s.w.pending ++ records } } q := by
    intro q hq
    refine same.located ?_ (hi.located q hq)
    simp only [unsealed, seqs_append, mem_append]
    tauto
  refine ⟨{ hi with }, hi.open_le, hi.ends_le, ?_, ?_, ?_, hi.meta_path, hi.object_part, hi.uploadedTo_end, ?_⟩
  · intro q hq
    rcases mem_append.1 hq with hq | hq
    · exact hi.committed_pos q hq
    · obtain ⟨r, hr, rfl⟩ := mem_seqs.1 hq
      exact hpos r hr
  · intro q hq
    have hu := hi.unsealed_committed q
    simp only [unsealed, seqs_append, mem_append] at hq hu ⊢
    tauto
  · intro q hq
    exact mem_append_left _ (hi.sealed_committed q hq)
  · intro q hq
    rcases mem_append.1 hq with hq | hq
    · exact hold q hq
    · obtain ⟨r, hr, rfl⟩ := mem_seqs.1 hq
      -- a repeated number was committed before or is in an object; a new one is above all
      rcases habove r hr with hnew | hagain
      · refine .fresh ?_ hnew
        simp only [unsealed, seqs_append, mem_append]
        exact .inr (.inr (mem_seqs_of_mem hr))
      · rcases mem_append.1 hagain with hl | ho
        · exact hold _ (hi.sealed_committed _ hl)
        · exact .stored ho

theorem streamInv_flush (hi : StreamInv s committed) : StreamInv (flushPendingLocked s) committed := by
  have same : SameSealed s (flushPendingLocked s) := ⟨by simp, by simp, by simp⟩
  have hopen := hi.toOpenFile
  have hlast := flush_lastSeq s
  constructor
  · refine hopen.flush fun r hr => hi.committed_pos _ (hi.unsealed_committed _ ?_)
    exact mem_seqs_of_mem (mem_append_right _ hr)
  · intro q hq
    rw [hopen.records_flush, unsealed, seqs_append, mem_append] at hq
    rcases hq with hq | hq
    · exact (hi.open_le q hq).trans hlast.1
    · obtain ⟨r, hr, rfl⟩ := mem_seqs.1 hq
      exact hlast.2 r hr
  · exact fun e he => (hi.ends_le e (same.mem_ends.1 he)).trans hlast.1
  · exact hi.committed_pos
  · rw [hopen.unsealed_flush]; exact hi.unsealed_committed
  · intro q hq; exact hi.sealed_committed q (same.mem_sealedSeqs.1 hq)
  · rw [flush_sealed]; exact hi.meta_path
  · intro a b hab
    rw [same.objects, same.records]
    exact hi.object_part a b ((same.mem a b).1 hab)
  · rw [flush_uploadedTo, same.objects]; exact hi.uploadedTo_end
  · intro q hq
    exact same.located (by rw [hopen.unsealed_flush]; exact id) (hi.located q hq)

/-- What the writer keeps and what it changes when it learns of sealed files or of
uploads, `ends` the ends of the objects. -/
structure LearnedAs (ends : List Nat) (w w' : StreamWriter) : Prop where
  openFrom : w'.openFrom = w.openFrom
  recCount : w'.recCount = w.recCount
  pending : w'.pending = w.pending
  evicted : w'.evicted = w.evicted
  lastSeq_le : w.lastSeq ≤ w'.lastSeq
  uploadedTo : w'.uploadedTo = w.uploadedTo ∨ w'.uploadedTo ∈ ends
  meta_path : (∀ m ∈ w.sealed, ∀ p, m.path = some p → p = m.name) → ∀ m ∈ w'.sealed, ∀ p, m.path = some p → p = m.name

theorem LearnedAs.refl (ends : List Nat) (w : StreamWriter) : LearnedAs ends w w :=
  ⟨rfl, rfl, rfl, rfl, le_rfl, .inl rfl, id⟩

theorem LearnedAs.trans {w w' w'' : StreamWriter}
    (h : LearnedAs ends w w') (h' : LearnedAs ends w' w'') : LearnedAs ends w w'' where
  openFrom := h'.openFrom.trans h.openFrom
  recCount := h'.recCount.trans h.recCount
  pending := h'.pending.trans h.pending
  evicted := h'.evicted.trans h.evicted
  lastSeq_le := h.lastSeq_le.trans h'.lastSeq_le
  uploadedTo := by
    rcases h'.uploadedTo with hu | hu
    · rw [hu]; exact h.uploadedTo
    · exact .inr hu
  meta_path hm := h'.meta_path (h.meta_path hm)

theorem LearnedAs.openFile {s' : Stream} (h : LearnedAs ends s.w s'.w)
    (hdir : s'.dir = s.dir) (ho : OpenFile s) : OpenFile s' := by
  refine ⟨?_, ?_, ?_⟩
  · rw [h.evicted]; exact ho.live
  · rw [hdir, h.openFrom, h.recCount]; exact ho.opened_mem
  · rw [h.openFrom, h.recCount]; exact ho.open_ne_zero

theorem LearnedAs.foldl {note : StreamWriter → StreamFileName → StreamWriter}
    {names : List StreamFileName} (hnote : ∀ w, ∀ n ∈ names, LearnedAs ends w (note w n)) :
    ∀ w, LearnedAs ends w (names.foldl note w) := by
  induction names with
  | nil => intro w; exact .refl ends w
  | cons n names ih =>
    intro w
    exact (hnote w n mem_cons_self).trans (ih (fun w n hn => hnote w n (mem_cons_of_mem _ hn)) _)

/-- An entry after `noteMeta` is an old one, a changed old one, or the new one if its
name was not in the list. -/
theorem mem_noteMeta {new : StreamMeta} {p : StreamMeta → Prop} [DecidablePred p] {f : StreamMeta → StreamMeta}
    {metas : List StreamMeta} {m : StreamMeta} (h : m ∈ noteMeta new (fun sm => if p sm then f sm else sm) metas) :
    m ∈ metas ∨ (m = new ∧ ∀ sm ∈ metas, ¬ (sm.fromSeq = new.fromSeq ∧ sm.toSeq = new.toSeq)) ∨
      ∃ sm ∈ metas, p sm ∧ sm.fromSeq = new.fromSeq ∧ sm.toSeq = new.toSeq ∧ m = f sm := by
  induction metas with
  | nil => exact .inr (.inl ⟨mem_singleton.1 h, by simp⟩)
  | cons sm rest ih =>
    rw [noteMeta] at h
    split at h
    · next heq =>
      rcases mem_cons.1 h with rfl | h
      · split
        · next hp => exact .inr (.inr ⟨sm, mem_cons_self, hp, heq.1, heq.2, rfl⟩)
        · exact .inl mem_cons_self
      · exact .inl (mem_cons_of_mem _ h)
    · next hne =>
      rcases mem_cons.1 h with rfl | h
      · exact .inl mem_cons_self
      · rcases ih h with h | ⟨h, hnot⟩ | ⟨sm', hm, h⟩
        · exact .inl (mem_cons_of_mem _ h)
        · exact .inr (.inl ⟨h, forall_mem_cons.2 ⟨hne, hnot⟩⟩)
        · exact .inr (.inr ⟨sm', mem_cons_of_mem _ hm, h⟩)

theorem learnedAs_noteLocal (ends : List Nat) (w : StreamWriter) (n : StreamFileName) :
    LearnedAs ends w (noteLocal w n) := by
  cases n with
  | opened f => exact .refl ends w
  | sealed a b =>
    refine ⟨rfl, rfl, rfl, rfl, ?_, .inl rfl, ?_⟩
    · simp only [noteLocal]
      split <;> omega
    · intro hm m h p hp
      rcases mem_noteMeta h with h | ⟨rfl, -⟩ | ⟨sm, -, -, ha, hb, rfl⟩
      · exact hm m h p hp
      · exact (some.inj hp).symm
      · rw [← some.inj hp, StreamMeta.name, ha, hb]

theorem learnedAs_noteRemote (w : StreamWriter) {n : StreamFileName}
    (hn : ∀ a b, n = .sealed a b → b ∈ ends) : LearnedAs ends w (noteRemote w n) := by
  cases n with
  | opened f => exact .refl ends w
  | sealed a b =>
    refine ⟨rfl, rfl, rfl, rfl, ?_, ?_, ?_⟩
    · simp only [noteRemote]
      split <;> omega
    · simp only [noteRemote]
      split
      · exact .inr (hn a b rfl)
      · exact .inl rfl
    · intro hm m h p hp
      rcases mem_noteMeta h with h | ⟨rfl, -⟩ | ⟨sm, hsm, -, -, -, rfl⟩
      · exact hm m h p hp
      · simp at hp
      · exact hm sm hsm p hp

theorem learnedAs_discover (listOk : Bool) (s : Stream) :
    LearnedAs s.objects.ends s.w (discoverRemoteSealedLocked listOk s).w := by
  have hlocal : LearnedAs s.objects.ends s.w (s.dir.listing.foldl noteLocal s.w) :=
    .foldl (fun w n _ => learnedAs_noteLocal _ w n) s.w
  have hremote : ∀ w, LearnedAs s.objects.ends w (s.objects.listing.foldl noteRemote w) := by
    refine .foldl fun w n hn => learnedAs_noteRemote w fun a b hab => ?_
    exact mem_ends.2 ⟨a, hab ▸ mem_listing.1 hn⟩
  cases listOk with
  | false => exact hlocal
  | true =>
    have h := hlocal.trans (hremote _)
    refine { h with meta_path := ?_ }
    intro hm m hmem
    exact h.meta_path hm m ((mem_insertionSort _).1 hmem)

section

variable (hi : StreamInv s committed)
include hi

/-- A stream that only learns of sealed files, or uploads some, keeps the invariant
if every committed sequence number can still be located. -/
theorem StreamInv.learned {s' : Stream} (h : LearnedAs s'.objects.ends s.w s'.w) (hdir : s'.dir = s.dir)
    (hends : ∀ e ∈ s.objects.ends, e ∈ s'.objects.ends)
    (hpart : ∀ a b, sealed a b ∈ s.dir →
      ∀ q ∈ seqs (s'.objects.records (.sealed a b)), q ∈ seqs (s.dir.records (.sealed a b)))
    (hloc : s'.unsealed = s.unsealed → ∀ q, Located s q → Located s' q) : StreamInv s' committed := by
  have hun : s'.unsealed = s.unsealed := by
    rw [unsealed, unsealed, hdir, h.openFrom, h.pending]
  constructor
  · exact h.openFile hdir hi.toOpenFile
  · rw [hdir, h.openFrom]
    exact fun q hq => (hi.open_le q hq).trans h.lastSeq_le
  · rw [hdir]
    exact fun e he => (hi.ends_le e he).trans h.lastSeq_le
  · exact hi.committed_pos
  · rw [hun]; exact hi.unsealed_committed
  · rw [hdir]; exact hi.sealed_committed
  · exact h.meta_path hi.meta_path
  · rw [hdir]; exact hpart
  · rcases h.uploadedTo with hu | hu
    · rw [hu]; exact hi.uploadedTo_end.imp_right (hends _)
    · exact .inr hu
  · exact fun q hq => hloc hun q (hi.located q hq)

theorem streamInv_discover (listOk : Bool) : StreamInv (discoverRemoteSealedLocked listOk s) committed := by
  have h := learnedAs_discover listOk s
  have hfiles : (discoverRemoteSealedLocked listOk s).dir = s.dir ∧
      (discoverRemoteSealedLocked listOk s).objects = s.objects := by
    unfold discoverRemoteSealedLocked
    split <;> exact ⟨rfl, rfl⟩
  generalize discoverRemoteSealedLocked listOk s = s' at *
  have same : SameSealed s s' := ⟨by simp [hfiles], by simp [hfiles], hfiles.2⟩
  refine hi.learned (by rwa [hfiles.2]) hfiles.1 (by simp [hfiles.2]) ?_ ?_
  · rw [hfiles.2]; exact hi.object_part
  · exact fun hun q hq => same.located (by rw [hun]; exact id) hq

omit hi in
theorem mem_afterRename {a b : Nat} :
    sealed a b ∈ (afterRename data s).dir ↔ (a = s.w.openFrom ∧ b = s.w.lastSeq) ∨ sealed a b ∈ s.dir := by
  simp [afterRename, mem_insert, mem_erase]

omit hi in
theorem records_afterRename (s : Stream) (data : List LogRecord) (a b : Nat) :
    (afterRename data s).dir.records (.sealed a b) =
      if a = s.w.openFrom ∧ b = s.w.lastSeq then data else s.dir.records (.sealed a b) := by
  simp [afterRename, records_insert, records_erase]

omit hi in
theorem mem_ends_afterRename {e : Nat} : e ∈ (afterRename data s).dir.ends ↔ e = s.w.lastSeq ∨ e ∈ s.dir.ends := by
  simp only [mem_ends, mem_afterRename]
  constructor
  · rintro ⟨a, ⟨-, h⟩ | h⟩
    · exact .inl h
    · exact .inr ⟨a, h⟩
  · rintro (h | ⟨a, h⟩)
    · exact ⟨_, .inl ⟨rfl, h⟩⟩
    · exact ⟨a, .inr h⟩

theorem streamInv_rename (hp : s.w.pending = [])
    (hd : s.dir.lookup (.opened s.w.openFrom) = some data) (hpart : ReplacesPart s) :
    StreamInv (afterRename data s) committed := by
  have hdata : s.dir.records (.opened s.w.openFrom) = data := by simp [records, hd]
  have hopen := hi.toOpenFile
  have hun : (afterRename data s).unsealed = [] := (hopen.unsealed_afterRename data).trans hp
  have hunsealed : s.unsealed = data := by rw [unsealed, hdata, hp, append_nil]
  constructor
  · exact hopen.afterRename data
  · exact fun q hq => absurd (mem_of_records hq) (hopen.not_mem_afterRename data _)
  · intro e he
    rcases mem_ends_afterRename.1 he with rfl | he
    · exact le_rfl
    · exact hi.ends_le e he
  · exact hi.committed_pos
  · simp [hun]
  · intro q hq
    obtain ⟨a, b, hq⟩ := mem_sealedSeqs.1 hq
    rw [records_afterRename] at hq
    split at hq
    · exact hi.unsealed_committed q (by rwa [hunsealed])
    · exact hi.sealed_committed q (mem_sealedSeqs.2 ⟨a, b, hq⟩)
  · refine forall_mem_append.2 ⟨hi.meta_path, forall_mem_singleton.2 fun p hpath => ?_⟩
    exact (some.inj hpath).symm
  · intro a b hab q hq
    rw [records_afterRename]
    split
    · next heq =>
      obtain ⟨rfl, rfl⟩ := heq
      rw [← hdata]
      exact hpart q (mem_append_right _ hq)
    · next hne => exact hi.object_part a b ((mem_afterRename.1 hab).resolve_left hne) q hq
  · exact hi.uploadedTo_end
  · intro q hq
    cases hi.located q hq with
    | fresh hq habove =>
      have hqd : q ∈ seqs data := by rwa [hunsealed] at hq
      refine .sealedLocally s.w.openFrom s.w.lastSeq ?_ ?_ ?_ ?_
      · rw [records_afterRename, if_pos ⟨rfl, rfl⟩]; exact hqd
      · exact hi.open_le q (by rwa [hdata])
      · exact fun e he => habove e (mem_append_right _ he)
      · intro e he hle
        rcases mem_ends_afterRename.1 he with rfl | he
        · exact le_rfl
        · exact absurd (habove e (mem_append_left _ he)) (by omega)
    | stored hq => exact .stored hq
    | sealedLocally a b hq hle habove hfirst =>
      refine .sealedLocally a b ?_ hle habove ?_
      · rw [records_afterRename]
        split
        · next heq =>
          obtain ⟨rfl, rfl⟩ := heq
          rw [← hdata]
          exact hpart q (mem_append_left _ hq)
        · exact hq
      · intro e he hqe
        rcases mem_ends_afterRename.1 he with rfl | he
        · exact hi.ends_le b (mem_ends.2 ⟨a, mem_of_records hq⟩)
        · exact hfirst e he hqe

omit hi in
theorem mem_ends_insert {f : Files} {a b e : Nat} {d : List LogRecord} :
    e ∈ Files.ends (f.insert (.sealed a b) d) ↔ e = b ∨ e ∈ f.ends := by
  simp only [mem_ends, mem_insert, sealed.injEq]
  constructor
  · rintro ⟨a', ⟨-, h⟩ | h⟩
    · exact .inl h
    · exact .inr ⟨a', h⟩
  · rintro (h | ⟨a', h⟩)
    · exact ⟨a, .inl ⟨rfl, h⟩⟩
    · exact ⟨a', .inr h⟩

omit hi in
theorem learnedAs_put (s : Stream) {i : Nat} {m : StreamMeta} (hmem : m ∈ s.w.sealed)
    (data : List LogRecord) :
    LearnedAs (Files.ends (s.objects.insert m.name data)) s.w
      ((afterPut m data s).setMeta i { m with key := some m.name }).w := by
  refine ⟨?_, ?_, ?_, ?_, ?_, ?_, ?_⟩ <;> simp only [setMeta, afterPut]
  · split <;> rfl
  · split <;> rfl
  · split <;> rfl
  · split <;> rfl
  · split <;> exact le_rfl
  · split
    · exact .inr (mem_ends_insert.2 (.inl rfl))
    · exact .inl rfl
  · intro hpath m' hm'
    have hset : m' ∈ s.w.sealed.set i { m with key := some m.name } := by
      split at hm' <;> exact hm'
    rcases mem_or_eq_of_mem_set hset with hm' | rfl
    · exact hpath m' hm'
    · exact hpath m hmem

theorem streamInv_put {i : Nat} {m : StreamMeta} {p : StreamFileName} (hm : s.w.sealed[i]? = some m)
    (hp : m.path = some p) (hd : s.dir.lookup p = some data) (horder : UploadsInOrder s m) :
    StreamInv ((afterPut m data s).setMeta i { m with key := some m.name }) committed := by
  have hmem : m ∈ s.w.sealed := mem_of_getElem? hm
  obtain rfl := hi.meta_path m hmem p hp
  have hdata : s.dir.records (.sealed m.fromSeq m.toSeq) = data := by
    simp only [records, StreamMeta.name] at hd ⊢
    rw [hd, getD_some]
  have hin : sealed m.fromSeq m.toSeq ∈ s.dir :=
    lookup_isSome.1 (by rw [StreamMeta.name] at hd; rw [hd]; rfl)
  have hrecords (a b) : records (s.objects.insert m.name data) (.sealed a b) =
      if a = m.fromSeq ∧ b = m.toSeq then data else s.objects.records (.sealed a b) := by
    simp [records_insert, StreamMeta.name]
  refine hi.learned (learnedAs_put s hmem data) rfl (fun e he => mem_ends_insert.2 (.inr he)) ?_ ?_
  · intro a b hab q hq
    simp only [setMeta, afterPut, hrecords] at hq
    split at hq
    · next heq => rw [heq.1, heq.2, hdata]; exact hq
    · exact hi.object_part a b hab q hq
  · intro hun q hq
    cases hq with
    | fresh hq habove =>
      refine .fresh (by rwa [hun]) fun e he => ?_
      rcases mem_append.1 he with he | he
      · exact habove e (mem_append_left _ he)
      · rcases mem_ends_insert.1 he with rfl | he
        · exact habove _ (mem_append_left _ (mem_ends.2 ⟨_, hin⟩))
        · exact habove e (mem_append_right _ he)
    | stored hq =>
      -- the object of this name, if there was one, held no more than the file does
      obtain ⟨a, b, hq⟩ := mem_sealedSeqs.1 hq
      refine .stored (mem_sealedSeqs.2 ⟨a, b, ?_⟩)
      simp only [setMeta, afterPut, hrecords]
      split
      · next heq =>
        rw [heq.1, heq.2] at hq
        rw [← hdata]
        exact hi.object_part _ _ hin q hq
      · exact hq
    | sealedLocally a b hq hle habove hfirst =>
      by_cases heq : a = m.fromSeq ∧ b = m.toSeq
      · refine .stored (mem_sealedSeqs.2 ⟨a, b, ?_⟩)
        simp only [setMeta, afterPut, hrecords, if_pos heq]
        rwa [heq.1, heq.2, hdata] at hq
      · refine .sealedLocally a b hq hle (fun e he => ?_) hfirst
        rcases mem_ends_insert.1 he with rfl | he
        · -- an upload that passes `q` would find the file of `q` uploaded already
          by_contra hlt
          have hb : b ≤ m.toSeq := hfirst _ (mem_ends.2 ⟨_, hin⟩) (by omega)
          have hobj := horder (a, b) (mem_sealedNames.2 (mem_of_records hq)) hb (by simpa using heq)
          have := habove b (mem_ends.2 ⟨a, hobj⟩)
          omega
        · exact habove e he

theorem streamInv_uploadAt
    {putOk : Bool} {i : Nat} (hok : UploadsAtInOrder putOk i s) : StreamInv (uploadAt putOk i s) committed := by
  rcases uploadAt_cases putOk i s with he | ⟨m, p, data, hput, hm, hkey, hp, hd, he⟩
  · rwa [he]
  · rw [he]
    simp only [UploadsAtInOrder, hm] at hok
    exact streamInv_put hi hm hp hd (hok hput hkey)

theorem streamInv_seal {putOk : Bool} (hok : SealsInOrder putOk s) : StreamInv (sealLocked putOk s) committed := by
  have hf := streamInv_flush hi
  rcases renameOpen_cases (flushPendingLocked s) with hn | ⟨data, -, -, hd, hr⟩
  · rwa [sealLocked_none hn]
  rw [sealLocked_some hr]
  simp only [SealsInOrder, hr] at hok
  refine streamInv_uploadAt (streamInv_rename hf (flush_pending s) hd hok.1) ?_
  simp only [UploadsAtInOrder, afterRename, getElem?_concat_length]
  exact fun hput _ => hok.2 hput

end

end InClusterStorage.Wal.Buffer
