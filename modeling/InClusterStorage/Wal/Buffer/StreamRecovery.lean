import InClusterStorage.Wal.Buffer.StreamOrder

/- Recovery of one stream when the buffer starts (`recoverStream` in
   `stream_store.go`). The writer is new; the directory may hold sealed files and
   an open one, the bucket sealed objects. The writer lists both, uploads the
   sealed files that have no object, and queues the records of the aggregated log
   above everything it has seen.

   What the rest of the buffer relies on is `recoverStream_objects`: afterwards
   the objects are those that were there and the sealed files that were not, and
   `uploadedTo` is where the last of them ends. -/
namespace InClusterStorage.Wal.Buffer

open List Option StreamWriter StreamFileName AList

/-- One entry of the local directory in `recoverStream`. -/
def recoverEntry (dir : Files) (w : StreamWriter) : StreamFileName → StreamWriter
  | .sealed a b =>
    { w with
      sealed := w.sealed ++ [{ fromSeq := a, toSeq := b, path := some (.sealed a b) }]
      lastSeq := if b > w.lastSeq then b else w.lastSeq }
  | .opened a =>
    let recs := dir.records (.opened a)
    let w := { w with openFrom := a, recCount := recs.length }
    match recs.head?, recs.getLast? with
    | some first, some last =>
      { w with
        firstPos := if w.firstPos = 0 ∨ first.position < w.firstPos then first.position else w.firstPos
        lastSeq := if last.streamSeq > w.lastSeq then last.streamSeq else w.lastSeq
        lastPos := if last.position > w.lastPos then last.position else w.lastPos }
    | _, _ => w

/-- Queue the records of the aggregated log that the stream has not seen. -/
def catchUp (id : UUID) (aggRecords : List LogRecord) (s : Stream) : Stream :=
  { s with
    w := { s.w with
      pending := s.w.pending ++ aggRecords.filter fun r => r.streamID = id ∧ r.streamSeq > s.w.lastSeq } }

/-- Scan the directory, discover the objects, upload what is missing there, and catch
up with the aggregated log; `puts i` is the outcome of the `i`-th upload. -/
def recoverStream (listOk : Bool) (puts : Nat → Bool) (id : UUID) (aggRecords : List LogRecord) (s : Stream) : Stream :=
  let s := { s with w := s.dir.listing.foldl (recoverEntry s.dir) s.w }
  let s := discoverRemoteSealedLocked listOk s
  let s := uploadPendingSealedLocked puts s
  flushPendingLocked (catchUp id aggRecords s)

/-- The entry that the scan makes for a sealed file. -/
def localMeta : StreamFileName → Option StreamMeta
  | .opened _ => none
  | .sealed a b => some { fromSeq := a, toSeq := b, path := some (.sealed a b) }

theorem scan_sealed (dir : Files) (names : List StreamFileName) :
    ∀ w : StreamWriter, (names.foldl (recoverEntry dir) w).sealed =
      w.sealed ++ names.filterMap localMeta ∧ (names.foldl (recoverEntry dir) w).uploadedTo = w.uploadedTo := by
  induction names with
  | nil => intro w; simp
  | cons n names ih =>
    intro w
    rw [foldl_cons, (ih _).1, (ih _).2]
    cases n with
    | sealed a b => simp [recoverEntry, localMeta]
    | opened a =>
      have hkeep : (recoverEntry dir w (.opened a)).sealed = w.sealed ∧
          (recoverEntry dir w (.opened a)).uploadedTo = w.uploadedTo := by
        simp only [recoverEntry]
        split <;> exact ⟨rfl, rfl⟩
      rw [hkeep.1, hkeep.2, filterMap_cons_none rfl]
      exact ⟨rfl, rfl⟩

/-! The list of sealed files against the directory and the bucket. -/

/-- `n` is where the last of the sealed files with the given names ends, zero
where there is none. -/
def LastEnd (names : List StreamFileName) (n : Nat) : Prop :=
  (∀ a b, sealed a b ∈ names → b ≤ n) ∧ (n = 0 ∨ ∃ a, sealed a n ∈ names)

/-- The list of sealed files describes a directory and the objects `names`: each
file of the directory has an entry, and the entries without a key are those
that are not among the objects. -/
structure Catalogue (dir : Files) (names : List StreamFileName) (w : StreamWriter) : Prop where
  nodup : w.names.Nodup
  known : ∀ a b, sealed a b ∈ dir → (a, b) ∈ w.names
  key_none : ∀ m ∈ w.sealed, m.key = none → m.path = some m.name ∧ m.name ∈ dir ∧ m.name ∉ names
  key_some : ∀ m ∈ w.sealed, m.key ≠ none → m.name ∈ names

theorem names_noteMeta_of_unknown {new : StreamMeta} {f : StreamMeta → StreamMeta} {metas : List StreamMeta}
    (hnot : (new.fromSeq, new.toSeq) ∉ metas.map fun m => (m.fromSeq, m.toSeq)) :
    noteMeta new f metas = metas ++ [new] := by
  induction metas with
  | nil => rfl
  | cons sm rest ih =>
    rw [map_cons, mem_cons, not_or] at hnot
    rw [noteMeta, if_neg fun h => hnot.1 (by rw [h.1, h.2]), ih hnot.2, cons_append]

/-- Where the names are distinct, the only entry that `noteMeta` changes is the one
with the name. -/
theorem mem_noteMeta_of_nodup {new : StreamMeta} {f : StreamMeta → StreamMeta}
    {metas : List StreamMeta} (hnd : (metas.map fun m => (m.fromSeq, m.toSeq)).Nodup) {m : StreamMeta}
    (h : m ∈ noteMeta new f metas) :
    (m ∈ metas ∧ m.name ≠ new.name) ∨ m = new ∨ ∃ sm ∈ metas, sm.name = new.name ∧ m = f sm := by
  induction metas with
  | nil => exact .inr (.inl (mem_singleton.1 h))
  | cons sm rest ih =>
    rw [map_cons, nodup_cons] at hnd
    rw [noteMeta] at h
    split at h
    · next heq =>
      rcases mem_cons.1 h with rfl | h
      · exact .inr (.inr ⟨sm, mem_cons_self, by rw [StreamMeta.name, heq.1, heq.2]; rfl, rfl⟩)
      · refine .inl ⟨mem_cons_of_mem _ h, fun hname => hnd.1 ?_⟩
        obtain ⟨ha, hb⟩ := sealed.inj hname
        exact mem_map.2 ⟨m, h, by rw [ha, hb, heq.1, heq.2]⟩
    · next hne =>
      rcases mem_cons.1 h with rfl | h
      · exact .inl ⟨mem_cons_self, fun hname => hne (sealed.inj hname)⟩
      · rcases ih hnd.2 h with ⟨hm, hname⟩ | h | ⟨sm', hm, h⟩
        · exact .inl ⟨mem_cons_of_mem _ hm, hname⟩
        · exact .inr (.inl h)
        · exact .inr (.inr ⟨sm', mem_cons_of_mem _ hm, h⟩)

theorem catalogue_scan (dir : Files) : Catalogue dir [] (dir.listing.foldl (recoverEntry dir) {}) := by
  obtain ⟨hs, -⟩ := scan_sealed dir dir.listing {}
  rw [nil_append] at hs
  have hmem : ∀ m ∈ (dir.listing.foldl (recoverEntry dir) {}).sealed,
      m.key = none ∧ m.path = some m.name ∧ m.name ∈ dir := by
    rw [hs]
    intro m hm
    obtain ⟨n, hdir, hn⟩ := mem_filterMap.1 hm
    cases n with
    | opened a => simp [localMeta] at hn
    | sealed a b =>
      simp only [localMeta, some.injEq] at hn
      subst hn
      exact ⟨rfl, rfl, Files.mem_listing.1 hdir⟩
  refine ⟨?_, ?_, ?_, ?_⟩
  · rw [names, hs, map_filterMap]
    have hnd : dir.listing.Nodup := (perm_insertionSort _ _).nodup_iff.2 dir.keys_nodup
    refine hnd.filterMap fun n n' x hx hx' => ?_
    cases n with
    | opened a => simp [localMeta] at hx
    | sealed a b =>
      cases n' with
      | opened a' => simp [localMeta] at hx'
      | sealed a' b' =>
        simp only [localMeta, map_some, mem_some_iff] at hx hx'
        rw [← hx', Prod.mk.injEq] at hx
        rw [hx.1, hx.2]
  · intro a b hab
    rw [names, hs]
    refine mem_map.2 ⟨{ fromSeq := a, toSeq := b, path := some (.sealed a b) }, ?_, rfl⟩
    exact mem_filterMap.2 ⟨_, Files.mem_listing.2 hab, rfl⟩
  · exact fun m hm _ => ⟨(hmem m hm).2.1, (hmem m hm).2.2, by simp⟩
  · exact fun m hm hk => absurd (hmem m hm).1 hk

namespace Catalogue

variable {dir : Files} {names : List StreamFileName} {w : StreamWriter}

/-- The directory has been scanned: listing it again adds nothing. -/
theorem noteLocal (h : Catalogue dir names w) {n : StreamFileName} (hn : n ∈ dir) :
    Catalogue dir names (noteLocal w n) := by
  cases n with
  | opened a => exact h
  | sealed a b =>
    have hmem := h.known a b hn
    have hnames : (Buffer.noteLocal w (.sealed a b)).names = w.names :=
      map_noteMeta (fun sm => by split <;> exact ⟨rfl, rfl⟩) hmem
    have hentry (m) (hm : m ∈ (Buffer.noteLocal w (.sealed a b)).sealed) : ∃ sm ∈ w.sealed,
        m.name = sm.name ∧ m.key = sm.key ∧ (sm.path = some sm.name → m.path = some sm.name) := by
      rcases mem_noteMeta hm with hm | ⟨-, hnot⟩ | ⟨sm, hsm, hnone, -, -, rfl⟩
      · exact ⟨m, hm, rfl, rfl, id⟩
      · obtain ⟨sm, hsm, heq⟩ := mem_map.1 hmem
        exact absurd ⟨(Prod.mk.inj heq).1, (Prod.mk.inj heq).2⟩ (hnot sm hsm)
      · exact ⟨sm, hsm, rfl, rfl, by simp [hnone]⟩
    refine ⟨hnames ▸ h.nodup, hnames ▸ h.known, ?_, ?_⟩
    · intro m hm hk
      obtain ⟨sm, hsm, hname, hkey, hpath⟩ := hentry m hm
      obtain ⟨hp, hrest⟩ := h.key_none sm hsm (hkey ▸ hk)
      rw [hname]
      exact ⟨hpath hp, hrest⟩
    · intro m hm hk
      obtain ⟨sm, hsm, hname, hkey, -⟩ := hentry m hm
      exact hname ▸ h.key_some sm hsm (hkey ▸ hk)

theorem noteRemote (h : Catalogue dir names w) (n : StreamFileName) : Catalogue dir (n :: names) (noteRemote w n) := by
  cases n with
  | opened a =>
    refine ⟨h.nodup, h.known, fun m hm hk => ?_, fun m hm hk => ?_⟩
    · obtain ⟨hp, hd, hnot⟩ := h.key_none m hm hk
      exact ⟨hp, hd, by simp [StreamMeta.name] at hnot ⊢; exact hnot⟩
    · exact mem_cons_of_mem _ (h.key_some m hm hk)
  | sealed a b =>
    have hnames : (Buffer.noteRemote w (.sealed a b)).names = w.names ∨
        ((a, b) ∉ w.names ∧ (Buffer.noteRemote w (.sealed a b)).names = w.names ++ [(a, b)]) := by
      by_cases hmem : (a, b) ∈ w.names
      · exact .inl (map_noteMeta (fun sm => by split <;> exact ⟨rfl, rfl⟩) hmem)
      refine .inr ⟨hmem, ?_⟩
      simp only [Buffer.noteRemote, StreamWriter.names]
      rw [names_noteMeta_of_unknown hmem, map_append]
      rfl
    refine ⟨?_, ?_, ?_, ?_⟩
    · rcases hnames with he | ⟨hnot, he⟩
      · rw [he]; exact h.nodup
      · rw [he, nodup_append_comm]
        exact nodup_cons.2 ⟨hnot, h.nodup⟩
    · intro a' b' hab
      have := h.known a' b' hab
      rcases hnames with he | ⟨-, he⟩ <;> rw [he]
      · exact this
      · exact mem_append_left _ this
    · intro m hm hk
      rcases mem_noteMeta_of_nodup h.nodup hm with ⟨hm, hne⟩ | rfl | ⟨sm, -, -, rfl⟩
      · obtain ⟨hp, hd, hnot⟩ := h.key_none m hm hk
        exact ⟨hp, hd, not_mem_cons_of_ne_of_not_mem hne hnot⟩
      · simp at hk
      · by_cases hs : sm.key = none <;> simp [hs] at hk
    · intro m hm hk
      rcases mem_noteMeta_of_nodup h.nodup hm with ⟨hm, -⟩ | rfl | ⟨sm, -, hname, rfl⟩
      · exact mem_cons_of_mem _ (h.key_some m hm hk)
      · exact mem_cons_self
      · refine mem_cons.2 (.inl ?_)
        split <;> exact hname

theorem congr (h : Catalogue dir names w) {names' : List StreamFileName} {w' : StreamWriter}
    (hnames : ∀ n, n ∈ names' ↔ n ∈ names) (hw : w'.sealed.Perm w.sealed) : Catalogue dir names' w' := by
  have hp : w'.names.Perm w.names := hw.map _
  refine ⟨hp.nodup_iff.2 h.nodup, fun a b hab => hp.mem_iff.2 (h.known a b hab), ?_, ?_⟩
  · intro m hm hk
    rw [hnames]
    exact h.key_none m (hw.mem_iff.1 hm) hk
  · intro m hm hk
    rw [hnames]
    exact h.key_some m (hw.mem_iff.1 hm) hk

end Catalogue

theorem catalogue_foldl_noteLocal {dir : Files} {names : List StreamFileName}
    (ns : List StreamFileName) : ∀ {w : StreamWriter}, (∀ n ∈ ns, n ∈ dir) →
      Catalogue dir names w → Catalogue dir names (ns.foldl noteLocal w) := by
  induction ns with
  | nil => intro w _ h; exact h
  | cons n ns ih =>
    intro w hns h
    exact ih (fun n hn => hns n (mem_cons_of_mem _ hn)) (h.noteLocal (hns n mem_cons_self))

theorem catalogue_foldl_noteRemote {dir : Files} (ns : List StreamFileName) :
    ∀ {names : List StreamFileName} {w : StreamWriter}, Catalogue dir names w →
      Catalogue dir (ns.reverse ++ names) (ns.foldl noteRemote w) := by
  induction ns with
  | nil => intro names w h; exact h
  | cons n ns ih =>
    intro names w h
    simpa using ih (h.noteRemote n)

theorem LastEnd.congr {names names' : List StreamFileName} {n : Nat} (h : LastEnd names n)
    (hnames : ∀ x, x ∈ names' ↔ x ∈ names) : LastEnd names' n := by
  simpa only [LastEnd, hnames] using h

/-- One more name, and the larger of the ends. -/
theorem LastEnd.cons {names : List StreamFileName} {n : Nat} (h : LastEnd names n) (a b : Nat) :
    LastEnd (.sealed a b :: names) (if b > n then b else n) := by
  constructor
  · intro a' b' hmem
    rcases mem_cons.1 hmem with heq | hmem
    · obtain ⟨rfl, rfl⟩ := sealed.inj heq
      split <;> omega
    · have := h.1 a' b' hmem
      split <;> omega
  · split
    · exact .inr ⟨a, mem_cons_self⟩
    · exact h.2.imp_right fun ⟨a', h'⟩ => ⟨a', mem_cons_of_mem _ h'⟩

theorem lastEnd_foldl_noteRemote (ns : List StreamFileName) :
    ∀ {names : List StreamFileName} {w : StreamWriter}, LastEnd names w.uploadedTo →
      LastEnd (ns.reverse ++ names) (ns.foldl noteRemote w).uploadedTo := by
  induction ns with
  | nil => intro names w h; exact h
  | cons n ns ih =>
    intro names w h
    have hn : LastEnd (n :: names) (noteRemote w n).uploadedTo := by
      cases n with
      | opened a => simpa [LastEnd, noteRemote] using h
      | sealed a b => exact h.cons a b
    simpa using ih hn

@[simp] theorem uploadedTo_foldl_noteLocal (ns : List StreamFileName) :
    ∀ w : StreamWriter, (ns.foldl noteLocal w).uploadedTo = w.uploadedTo := by
  induction ns with
  | nil => intro w; rfl
  | cons n ns ih =>
    intro w
    rw [foldl_cons, ih]
    cases n <;> rfl

theorem discover_eq (s : Stream) :
    discoverRemoteSealedLocked true s =
      let w := s.objects.listing.foldl noteRemote (s.dir.listing.foldl noteLocal s.w)
      { s with
        w := { w with
          discovered := true
          sealed := w.sealed.insertionSort fun a b => a.fromSeq ≤ b.fromSeq } } := rfl

variable {s s₀ : Stream}

/-- A writer that has seen no object learns where the last one ends. -/
theorem lastEnd_discover (h0 : s.w.uploadedTo = 0) :
    LastEnd s.objects.keys (discoverRemoteSealedLocked true s).w.uploadedTo := by
  have h : LastEnd [] (s.dir.listing.foldl noteLocal s.w).uploadedTo := by
    rw [uploadedTo_foldl_noteLocal, h0]
    exact ⟨by simp, .inl rfl⟩
  refine (lastEnd_foldl_noteRemote s.objects.listing h).congr fun x => ?_
  simp [AList.mem_keys]

/-! The uploads, and the stream after its recovery. -/

/-- Of the stream `s₀` found on disk and in the bucket, `s` has listed everything
and uploaded some of the sealed files that were not in the bucket. -/
structure Catalogued (s₀ s : Stream) : Prop where
  dir : s.dir = s₀.dir
  catalogue : Catalogue s₀.dir s.objects.keys s.w
  lastEnd : LastEnd s.objects.keys s.w.uploadedTo
  objects : ∀ n, s.objects.lookup n = s₀.objects.lookup n ∨
    n ∉ s₀.objects ∧ s.objects.lookup n = s₀.dir.lookup n ∧ ∃ a b, n = .sealed a b
  kept : ∀ n ∈ s₀.objects, n ∈ s.objects

theorem catalogued_discover (hw : s₀.w = {}) :
    Catalogued s₀ (discoverRemoteSealedLocked true { s₀ with w := s₀.dir.listing.foldl (recoverEntry s₀.dir) s₀.w }) := by
  have hscan := catalogue_scan s₀.dir
  have hup := (scan_sealed s₀.dir s₀.dir.listing {}).2
  rw [← hw] at hscan hup
  have hlocal := catalogue_foldl_noteLocal s₀.dir.listing (fun n hn => Files.mem_listing.1 hn) hscan
  have hremote := catalogue_foldl_noteRemote s₀.objects.listing hlocal
  refine ⟨rfl, ?_, lastEnd_discover (s := { s₀ with w := _ }) (hup.trans (by rw [hw])), fun n => .inl rfl, fun n hn => hn⟩
  refine hremote.congr (fun n => ?_) (perm_insertionSort _ _)
  simp [discover_eq, AList.mem_keys]

section

variable (h : Catalogued s₀ s)
include h

/-- An upload stores the file of an entry that has no key, and does nothing else. -/
theorem Catalogued.uploadAt_cases (i : Nat) :
    (uploadAt true i s = s ∧ ∀ m, s.w.sealed[i]? = some m → m.key ≠ none) ∨
    ∃ m data, s.w.sealed[i]? = some m ∧ m.name ∉ s.objects ∧ s₀.dir.lookup m.name = some data ∧
      uploadAt true i s = (afterPut m data s).setMeta i { m with key := some m.name } := by
  cases hm : s.w.sealed[i]? with
  | none => exact .inl ⟨by simp only [uploadAt, hm], by simp⟩
  | some m =>
    by_cases hk : m.key = none
    · obtain ⟨hpath, hdir, hnew⟩ := h.catalogue.key_none m (mem_of_getElem? hm) hk
      obtain ⟨data, hdata⟩ := isSome_iff_exists.1 (lookup_isSome.2 hdir)
      refine .inr ⟨m, data, rfl, hnew, hdata, ?_⟩
      simp only [uploadAt, hm, uploadSealedMetaLocked, hk, hpath, h.dir, hdata]
    · refine .inl ⟨?_, fun m' hm' => some.inj hm' ▸ hk⟩
      rcases Buffer.uploadAt_cases true i s with he | ⟨m', _, _, -, hm', hk', -⟩
      · exact he
      · rw [hm, some.injEq] at hm'
        exact absurd (hm' ▸ hk') hk

theorem Catalogued.uploadAt (i : Nat) : Catalogued s₀ (uploadAt true i s) := by
  have hnames := names_uploadAt true i s
  have hdir := dir_uploadAt true i s
  rcases h.uploadAt_cases i with ⟨he, -⟩ | ⟨m, data, hm, hnew, hdata, he⟩
  · rwa [he]
  rw [he] at hnames hdir ⊢
  have hkeys (n) : n ∈ (s.objects.insert m.name data).keys ↔ n ∈ m.name :: s.objects.keys := by
    rw [← AList.mem_keys, AList.mem_insert, mem_cons, AList.mem_keys]
  have hnd : ((afterPut m data s).setMeta i { m with key := some m.name }).w.names.Nodup :=
    hnames ▸ h.catalogue.nodup
  -- the entry with the new key is the only one of its name
  have hentry : ∀ m' ∈ s.w.sealed.set i { m with key := some m.name },
      m' = { m with key := some m.name } ∨ m' ∈ s.w.sealed ∧ m'.name ≠ m.name := by
    intro m' hm'
    by_cases hname : m'.name = m.name
    · obtain ⟨ha, hb⟩ := sealed.inj hname
      rw [names, sealed_put] at hnd
      have hself := List.mem_set (List.getElem?_eq_some_iff.1 hm).1 { m with key := some m.name }
      exact .inl (inj_on_of_nodup_map hnd hm' hself (by rw [ha, hb]))
    · rcases mem_or_eq_of_mem_set hm' with hm' | rfl
      · exact .inr ⟨hm', hname⟩
      · exact absurd rfl hname
  refine ⟨hdir.trans h.dir, ⟨hnd, ?_, ?_, ?_⟩, ?_, ?_, ?_⟩
  · rw [hnames]; exact h.catalogue.known
  · intro m' hm' hk'
    rw [sealed_put] at hm'
    rcases hentry m' hm' with rfl | ⟨hm', hname⟩
    · simp at hk'
    · obtain ⟨hp, hd, hnot⟩ := h.catalogue.key_none m' hm' hk'
      exact ⟨hp, hd, fun hin => (mem_cons.1 ((hkeys _).1 hin)).elim hname hnot⟩
  · intro m' hm' hk'
    rw [sealed_put] at hm'
    refine (hkeys _).2 ?_
    rcases hentry m' hm' with rfl | ⟨hm', -⟩
    · exact mem_cons_self
    · exact mem_cons_of_mem _ (h.catalogue.key_some m' hm' hk')
  · have hend := (h.lastEnd.cons m.fromSeq m.toSeq).congr hkeys
    simp only [Stream.setMeta, afterPut]
    split
    · next hgt => rwa [if_pos hgt] at hend
    · next hle => rwa [if_neg hle] at hend
  · intro n
    by_cases hn : n = m.name
    · subst hn
      refine .inr ⟨fun hin => hnew (h.kept _ hin), ?_, m.fromSeq, m.toSeq, rfl⟩
      exact (lookup_insert _).trans hdata.symm
    · have hl : (s.objects.insert m.name data).lookup n = s.objects.lookup n := lookup_insert_ne hn
      rcases h.objects n with ho | ⟨hnot, ho, hab⟩
      · exact .inl (hl.trans ho)
      · exact .inr ⟨hnot, hl.trans ho, hab⟩
  · exact fun n hn => (mem_insert _).2 (.inr (h.kept n hn))

/-- After `k` uploads the first `k` entries have keys. -/
theorem Catalogued.uploads (k : Nat) :
    let s' := (range k).foldl (fun s i => Buffer.uploadAt true i s) s
    Catalogued s₀ s' ∧ s'.w.names = s.w.names ∧ ∀ i < k, ∀ m, s'.w.sealed[i]? = some m → m.key ≠ none := by
  induction k with
  | zero => exact ⟨h, rfl, by simp⟩
  | succ k ih =>
    obtain ⟨hc, hnames, hkeys⟩ := ih
    rw [range_succ, foldl_append, foldl_cons, foldl_nil]
    refine ⟨hc.uploadAt k, (names_uploadAt true k _).trans hnames, fun i hi m hm => ?_⟩
    rcases hc.uploadAt_cases k with ⟨he, hk⟩ | ⟨m', data, hm', -, -, he⟩
    · rw [he] at hm
      rcases Nat.lt_succ_iff_lt_or_eq.1 hi with hi | rfl
      · exact hkeys i hi m hm
      · exact hk m hm
    · rw [he, sealed_put] at hm
      rcases Nat.lt_succ_iff_lt_or_eq.1 hi with hi | rfl
      · rw [getElem?_set_ne (by omega)] at hm
        exact hkeys i hi m hm
      · rw [List.getElem?_set_self (List.getElem?_eq_some_iff.1 hm').1, some.injEq] at hm
        rw [← hm]
        simp

theorem Catalogued.uploadPending :
    Catalogued s₀ (uploadPendingSealedLocked (fun _ => true) s) ∧
      ∀ m ∈ (uploadPendingSealedLocked (fun _ => true) s).w.sealed, m.key ≠ none := by
  obtain ⟨hc, hnames, hkeys⟩ := h.uploads s.w.sealed.length
  refine ⟨hc, fun m hm => ?_⟩
  have hlen := congrArg length hnames
  rw [names, names, length_map, length_map] at hlen
  obtain ⟨i, hi, rfl⟩ := getElem_of_mem hm
  exact hkeys i (hlen ▸ hi) _ (getElem?_eq_getElem hi)

end

/-- **A recovered stream has every sealed file in the bucket**: the objects that
were there, and the files of the directory that had no object. `uploadedTo` is
where the last of them ends. -/
theorem recoverStream_objects (hw : s.w = {}) (id : UUID) (aggRecords : List LogRecord) :
    let s' := recoverStream true (fun _ => true) id aggRecords s
    (∀ a b, s'.objects.lookup (.sealed a b) = (s.objects.lookup (.sealed a b)).or (s.dir.lookup (.sealed a b))) ∧
    LastEnd s'.objects.keys s'.w.uploadedTo := by
  obtain ⟨hc, hkeys⟩ := (catalogued_discover hw).uploadPending
  simp only [recoverStream, flush_objects, flush_uploadedTo, catchUp]
  refine ⟨fun a b => ?_, hc.lastEnd⟩
  rcases hc.objects (.sealed a b) with ho | ⟨hnot, ho, -⟩
  · rw [ho]
    cases hl : s.objects.lookup (.sealed a b) with
    | some d => rw [some_or]
    | none =>
      by_contra hne
      -- the file has an entry, and every entry has a key by now
      have hdir : sealed a b ∈ s.dir := by
        rw [← lookup_isSome, isSome_iff_ne_none]
        exact fun h => hne h.symm
      obtain ⟨m, hm, hname⟩ := mem_map.1 (hc.catalogue.known a b hdir)
      have hin := hc.catalogue.key_some m hm (hkeys m hm)
      rw [StreamMeta.name, (Prod.mk.inj hname).1, (Prod.mk.inj hname).2, ← AList.mem_keys, ← lookup_isSome, ho, hl] at hin
      simp at hin
  · rw [ho, lookup_eq_none.2 hnot, none_or]

end InClusterStorage.Wal.Buffer
