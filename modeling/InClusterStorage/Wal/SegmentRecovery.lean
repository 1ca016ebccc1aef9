import InClusterStorage.Lib.Runs
import InClusterStorage.Wal.Segment

/- What a failed segment write endangers. A store keeps its file descriptor after
   a failed write and goes on appending behind the torn bytes, while reopening
   stops at the first record that does not decode and cuts the file there. A
   failed header write leaves a file that reopening refuses, or that a second
   rotation to the same name puts a second header into.

   The runs here are calls of either store with any faults, and reopenings. The
   files are what the calls wrote: a restart of the process, not of the machine.
   `acked_survive_reopen` says when nothing is lost: each append that stays in
   the open file finds it at a record boundary, and each rotation that opens a
   file finds it absent or empty and leaves none or all of the header. -/
namespace InClusterStorage.Wal

open Frame List Option SegmentStore AList Runs

/-- A store with the records of the calls that returned nil: those of `Append` that
no `Sync` has followed yet, and those that are synced. -/
structure AckedStore (α : Type*) where
  s : SegmentStore
  unsynced : List α := []
  synced : List α := []

inductive StoreCall (α : Type*) where
  | append (r : α) (faults : Faults)
  | sync (syncFails : Bool)
  | appendBatch (records : List (α × Faults)) (syncFails : Bool)
  | reopen

section
variable {α : Type*} (f : Format α) (key : α → Nat)

def AckedStore.step (h : AckedStore α) : StoreCall α → Option (AckedStore α)
  | .append r faults =>
    let result := h.s.append f key faults r
    some { h with s := result.1, unsynced := if result.2 then h.unsynced ++ [r] else h.unsynced }
  | .sync syncFails =>
    if h.s.sync syncFails then some { h with unsynced := [], synced := h.synced ++ h.unsynced }
    else some h
  | .appendBatch records syncFails =>
    let result := h.s.appendBatch f key syncFails records
    some { h with
      s := result.1
      synced := if result.2 then h.synced ++ records.map Prod.fst else h.synced }
  | .reopen =>
    match h.s.reopen f key with
    | .error _ => none
    | .ok (s, _) => some { h with s, unsynced := [] }

/-- Reopening returns every record of every call that returned nil and was synced. -/
def AckedStore.Survives (h : AckedStore α) : Prop :=
  ∃ s records, h.s.reopen f key = .ok (s, records) ∧ ∀ r ∈ h.synced, r ∈ records

instance [DecidableEq α] (h : AckedStore α) : Decidable (h.Survives f key) :=
  match hr : h.s.reopen f key with
  | .error _ => isFalse (by rintro ⟨_, _, h', -⟩; rw [hr] at h'; cases h')
  | .ok (s, records) => decidable_of_iff (∀ r ∈ h.synced, r ∈ records) (by
      simp only [AckedStore.Survives, hr]
      exact ⟨fun hall => ⟨s, records, rfl, hall⟩, by rintro ⟨_, _, ⟨⟩, hall⟩; exact hall⟩)

/-- The open file ends at the end of a record: a scan of it leaves nothing. -/
def SegmentStore.AtBoundary (s : SegmentStore) : Prop :=
  match s.active with
  | none => True
  | some m => (f.scanAll ((s.bytesOf m.name).drop segmentHeaderSize)).2 = []

/-- A rotation to `name` fails before it opens the file, or finds it absent or
empty and leaves none or all of the header there. -/
def SegmentStore.RotatesCleanly (s : SegmentStore) (faults : Faults) (name : Nat) : Prop :=
  (s.active.isSome ∧ faults.closeFails) ∨ faults.openFails ∨
    (s.bytesOf name = [] ∧ ∀ k ∈ faults.header, k = 0 ∨ segmentHeaderSize ≤ k)

/-- What one append must satisfy in the state before it. -/
def SegmentStore.AppendsCleanly (s : SegmentStore) (faults : Faults) (r : α) : Prop :=
  f.Fits r ∧
    if s.needsRotation (f.encode r).length then s.RotatesCleanly faults (key r) else s.AtBoundary f

/-- Each append of a batch that is reached satisfies `AppendsCleanly`. -/
def SegmentStore.BatchCleanly : List (α × Faults) → SegmentStore → Prop
  | [], _ => True
  | (r, faults) :: rest, s => s.AppendsCleanly f key faults r ∧
      ((s.append f key faults r).2 = true → BatchCleanly rest (s.append f key faults r).1)

/-- The condition on a run. -/
def AckedStore.Cleanly (h : AckedStore α) : StoreCall α → Prop
  | .append r faults => h.s.AppendsCleanly f key faults r
  | .appendBatch records _ => BatchCleanly f key records h.s
  | _ => True

instance (s : SegmentStore) : Decidable (s.AtBoundary f) :=
  match h : s.active with
  | none => isTrue (by simp only [AtBoundary, h])
  | some m => decidable_of_iff ((f.scanAll ((s.bytesOf m.name).drop segmentHeaderSize)).2 = [])
      (by simp only [AtBoundary, h])

instance (s : SegmentStore) (faults : Faults) (name : Nat) :
    Decidable (s.RotatesCleanly faults name) := inferInstanceAs (Decidable (_ ∨ _))

instance [DecidablePred f.Fits] (s : SegmentStore) (faults : Faults) (r : α) :
    Decidable (s.AppendsCleanly f key faults r) := inferInstanceAs (Decidable (_ ∧ ite _ _ _))

instance SegmentStore.BatchCleanly.decidable [DecidablePred f.Fits] :
    ∀ (records : List (α × Faults)) (s : SegmentStore), Decidable (BatchCleanly f key records s)
  | [], _ => isTrue trivial
  | (r, faults) :: rest, s =>
    have := SegmentStore.BatchCleanly.decidable rest (s.append f key faults r).1
    inferInstanceAs (Decidable (_ ∧ (_ → _)))

instance [DecidablePred f.Fits] (h : AckedStore α) : ∀ e, Decidable (h.Cleanly f key e)
  | .append r faults => inferInstanceAs (Decidable (h.s.AppendsCleanly f key faults r))
  | .sync _ => inferInstanceAs (Decidable True)
  | .appendBatch records _ =>
    inferInstanceAs (Decidable (BatchCleanly f key records h.s))
  | .reopen => inferInstanceAs (Decidable True)

/-! The bytes of the files. -/

/-- The file is a header, the records `rs`, and a rest that does not decode. -/
def Layout (bytes : List UInt8) (rs : List α) : Prop :=
  ∃ part, bytes = defaultSegmentHeader ++ (rs.flatMap f.encode ++ part) ∧
    (∀ r ∈ rs, f.Fits r) ∧ ∃ e, f.decode part = .error e

variable {f}

theorem Layout.header_only : Layout f defaultSegmentHeader [] :=
  ⟨[], by simp, by simp, f.decode_nil⟩

variable {bytes : List UInt8} {rs acked : List α} {s : SegmentStore}

section

variable (h : Layout f bytes rs)
include h

theorem Layout.ne_nil : bytes ≠ [] := by
  obtain ⟨part, rfl, -⟩ := h
  intro hnil
  have := congrArg length hnil
  rw [length_append, length_defaultSegmentHeader, segmentHeaderSize, length_nil] at this
  omega

theorem Layout.scanAll :
    ∃ part, bytes = defaultSegmentHeader ++ (rs.flatMap f.encode ++ part) ∧
      f.scanAll (bytes.drop segmentHeaderSize) = (rs, part) := by
  obtain ⟨part, rfl, hfits, hpart⟩ := h
  refine ⟨part, rfl, ?_⟩
  exact f.scanAll_encode hfits hpart

/-- A scan of the file returns its records and cuts off the rest. -/
theorem Layout.scanSegmentFile (accept : Bool) :
    scanSegmentFile f accept bytes = .ok (rs, defaultSegmentHeader ++ rs.flatMap f.encode) := by
  obtain ⟨part, rfl, hfits, hpart⟩ := h
  exact scanSegmentFile_encode (readSegmentHeader_default accept) hfits hpart

/-- A write at a record boundary leaves a file whose records are those before and,
if all bytes reached it, the new one. -/
theorem Layout.write (hend : (f.scanAll (bytes.drop segmentHeaderSize)).2 = []) {r : α} (hr : f.Fits r)
    (fault : Option Nat) :
    ∃ rs', Layout f (bytes ++ written fault (f.encode r)) rs' ∧ rs ⊆ rs' ∧ (fault = none → r ∈ rs') := by
  obtain ⟨part, hbytes, hscan⟩ := h.scanAll
  obtain ⟨-, -, hfits, -⟩ := h
  obtain rfl : part = [] := by rw [hscan] at hend; exact hend
  by_cases hall : written fault (f.encode r) = f.encode r
  · refine ⟨rs ++ [r], ⟨[], ?_, ?_, f.decode_nil⟩, subset_append_left _ _, by simp⟩
    · rw [hall, hbytes]; simp
    · intro r' hr'
      rcases mem_append.1 hr' with hr' | hr'
      · exact hfits r' hr'
      · rwa [mem_singleton.1 hr']
  · cases fault with
    | none => exact absurd rfl hall
    | some k =>
      refine ⟨rs, ⟨(f.encode r).take k, ?_, hfits, ?_⟩, List.Subset.refl _, by simp⟩
      · rw [hbytes]; simp [written]
      · exact f.decode_torn hr ( take_prefix k _) hall

end

/-! What a store keeps intact. -/

theorem SegmentStore.bytesOf_extend (s : SegmentStore) (name name' : Nat) (data : List UInt8) :
    (s.extend name data).bytesOf name' = if name' = name then s.bytesOf name ++ data else s.bytesOf name' := by
  unfold bytesOf extend
  split
  · next h => subst h; simp [bytesOf]
  · next h => simp [lookup_insert_ne h]

variable (f) in
/-- Every file is empty or laid out, the open one is laid out, and every
acknowledged record is in a file. -/
structure Intact (s : SegmentStore) (acked : List α) : Prop where
  files : ∀ name, s.bytesOf name = [] ∨ ∃ rs, Layout f (s.bytesOf name) rs
  active : ∀ m, s.active = some m → ∃ rs, Layout f (s.bytesOf m.name) rs
  acked : ∀ r ∈ acked, ∃ name rs, Layout f (s.bytesOf name) rs ∧ r ∈ rs

section

variable (hi : Intact f s acked)
include hi

/-- A store in which one file was extended stays intact if the file's records
only grow. -/
theorem Intact.extend (name : Nat) {data : List UInt8} {rs' : List α} (hlay : Layout f (s.bytesOf name ++ data) rs')
    (hgrow : ∀ rs, Layout f (s.bytesOf name) rs → rs ⊆ rs') : Intact f (s.extend name data) acked := by
  refine ⟨fun n => ?_, fun m hm => ?_, fun r hr => ?_⟩
  · rw [s.bytesOf_extend]
    split
    · exact .inr ⟨rs', hlay⟩
    · exact hi.files n
  · rw [s.bytesOf_extend]
    split
    · exact ⟨rs', hlay⟩
    · exact hi.active m hm
  · obtain ⟨n, rs, hn, hmem⟩ := hi.acked r hr
    by_cases heq : n = name
    · subst heq
      exact ⟨n, rs', by rwa [s.bytesOf_extend, if_pos rfl], hgrow rs hn hmem⟩
    · exact ⟨n, rs, by rwa [s.bytesOf_extend, if_neg heq], hmem⟩

/-- Only the files matter, and that the open one is laid out. -/
theorem Intact.congr {s' : SegmentStore} (hfiles : s'.files = s.files)
    (hactive : ∀ m, s'.active = some m → ∃ rs, Layout f (s.bytesOf m.name) rs) : Intact f s' acked := by
  have hb (name) : s'.bytesOf name = s.bytesOf name := by
    rw [bytesOf, bytesOf, hfiles]
  refine ⟨fun n => by rw [hb]; exact hi.files n, fun m hm => by rw [hb]; exact hactive m hm, ?_⟩
  intro r hr
  obtain ⟨n, rs, hn, hmem⟩ := hi.acked r hr
  exact ⟨n, rs, by rwa [hb], hmem⟩

omit hi in
/-- The records of one file are determined by its bytes. -/
theorem Layout.unique {rs' : List α} (h : Layout f bytes rs) (h' : Layout f bytes rs') : rs = rs' := by
  obtain ⟨_, -, hs⟩ := h.scanAll
  obtain ⟨_, -, hs'⟩ := h'.scanAll
  rw [hs] at hs'
  exact (Prod.mk.inj hs').1

theorem Intact.writeRecord
    (hend : s.AtBoundary f) {r : α} (hr : f.Fits r) (faults : Faults) :
    Intact f (s.writeRecord f key faults r).1 (acked ++ if (s.writeRecord f key faults r).2 then [r] else []) := by
  unfold SegmentStore.writeRecord
  cases hm : s.active with
  | none => simpa using hi
  | some m =>
    simp only [AtBoundary, hm] at hend
    obtain ⟨rs, hlay⟩ := hi.active m hm
    obtain ⟨rs', hlay', hsub, hnew⟩ := hlay.write hend hr faults.write
    have hext := hi.extend _ hlay' fun rs₀ h₀ => by rwa [h₀.unique hlay]
    cases hw : faults.write with
    | some k => simpa [hw] using hext
    | none =>
      rw [hw] at hext hlay'
      refine ⟨hext.files, ?_, ?_⟩
      · rintro m' hm'
        obtain rfl := some.inj hm'
        exact hext.active m hm
      · intro r' hr'
        rcases mem_append.1 hr' with hr' | hr'
        · exact hext.acked r' hr'
        · obtain rfl : r' = r := by simpa using hr'
          refine ⟨m.name, rs', ?_, hnew hw⟩
          have : (s.extend m.name (written none (f.encode r'))).bytesOf m.name =
              s.bytesOf m.name ++ written none (f.encode r') := by
            rw [s.bytesOf_extend, if_pos rfl]
          exact this ▸ hlay'

/-- A clean rotation keeps the files intact, and if it succeeds the new file has
its header only. -/
theorem Intact.rotateLocked
    {faults : Faults} {name : Nat} (hclean : s.RotatesCleanly faults name) :
    Intact f (s.rotateLocked faults name).1 acked ∧
      ((s.rotateLocked faults name).2 = true → (s.rotateLocked faults name).1.AtBoundary f) := by
  have hclosed : Intact f { s with active := none, segments := s.segments ++ s.active.toList } acked :=
    hi.congr rfl (by simp)
  unfold SegmentStore.rotateLocked
  split
  · exact ⟨hclosed, by simp⟩
  split
  · exact ⟨hclosed, by simp⟩
  next hclose hopen =>
    obtain ⟨hempty, hheader⟩ := (hclean.resolve_left hclose).resolve_left hopen
    have hnone : ∀ rs, ¬ Layout f (s.bytesOf name) rs := fun rs h => h.ne_nil hempty
    -- the header has all its bytes, or none
    have hwritten : written faults.header defaultSegmentHeader = defaultSegmentHeader ∨
        (faults.header.isSome ∧ written faults.header defaultSegmentHeader = []) := by
      cases hh : faults.header with
      | none => exact .inl rfl
      | some k =>
        rcases hheader k hh with rfl | hk
        · exact .inr ⟨rfl, rfl⟩
        · exact .inl (take_of_length_le hk)
    rcases hwritten with hw | ⟨hsome, hw⟩
    · rw [hw]
      have hlay : Layout f (s.bytesOf name ++ defaultSegmentHeader) [] := by
        rw [hempty]; exact Layout.header_only
      have hext := hclosed.extend name hlay fun rs hrs => absurd hrs (hnone rs)
      have hbytes : (SegmentStore.extend { s with active := none, segments := s.segments ++ s.active.toList }
          name defaultSegmentHeader).bytesOf name = defaultSegmentHeader := by
        rw [bytesOf_extend, if_pos rfl]
        exact (congrArg (· ++ defaultSegmentHeader) hempty).trans (nil_append _)
      split
      · exact ⟨hext, by simp⟩
      refine ⟨hext.congr rfl ?_, fun _ => ?_⟩
      · rintro m hm
        obtain rfl := some.inj hm
        exact ⟨[], by rw [SegmentMeta.new, hbytes]; exact Layout.header_only⟩
      · have hscan : (f.scanAll (defaultSegmentHeader.drop segmentHeaderSize)).2 = [] := by
          obtain ⟨part, hb, hs⟩ := (Layout.header_only (f := f)).scanAll
          rw [hs]
          simpa using hb
        exact (congrArg (fun b => (f.scanAll (b.drop segmentHeaderSize)).2) hbytes).trans hscan
    · rw [hw, if_pos hsome]
      refine ⟨⟨fun n => ?_, by simp [SegmentStore.extend], fun r hr => ?_⟩, by simp⟩
      · rw [bytesOf_extend, append_nil]
        split
        · next h => subst h; exact hi.files n
        · exact hi.files n
      · obtain ⟨n, rs, hn, hmem⟩ := hi.acked r hr
        refine ⟨n, rs, ?_, hmem⟩
        rw [bytesOf_extend, append_nil]
        split
        · next h => subst h; exact hn
        · exact hn

theorem Intact.append {faults : Faults}
    {r : α} (hclean : s.AppendsCleanly f key faults r) :
    Intact f (s.append f key faults r).1 (acked ++ if (s.append f key faults r).2 then [r] else []) := by
  obtain ⟨hr, hclean⟩ := hclean
  unfold SegmentStore.append
  split at hclean
  · next hrot =>
    obtain ⟨hi', hend⟩ := hi.rotateLocked hclean
    rw [if_pos hrot]
    simp only
    split
    · next hok => exact hi'.writeRecord key (hend hok) hr faults
    · next hfail => simpa [hfail] using hi'
  · next hrot =>
    rw [if_neg hrot]
    exact hi.writeRecord key hclean hr faults

omit hi in
theorem Intact.appendBatch (syncFails : Bool) (records : List (α × Faults)) :
    ∀ {s : SegmentStore} {acked : List α}, Intact f s acked →
      BatchCleanly f key records s →
      Intact f (s.appendBatch f key syncFails records).1
        (acked ++ if (s.appendBatch f key syncFails records).2 then records.map Prod.fst else []) := by
  induction records with
  | nil => intro s acked hi _; simpa [SegmentStore.appendBatch] using hi
  | cons x rest ih =>
    obtain ⟨r, faults⟩ := x
    intro s acked hi hclean
    have happ := hi.append key hclean.1
    simp only [SegmentStore.appendBatch]
    split
    · next hok =>
      have := ih happ (hclean.2 hok)
      refine ⟨this.files, this.active, fun r' hr' => this.acked r' ?_⟩
      split at hr' <;> simp_all
    · next hfail =>
      rwa [if_neg hfail] at happ

/-! Reopening. -/

omit hi in
theorem scanSegmentFile_nil (accept : Bool) : scanSegmentFile f accept [] = .ok ([], []) := by
  simp [scanSegmentFile, readSegmentHeader]

/-- The scan of intact files succeeds; each file comes with its records, cut to them. -/
theorem Intact.scanFiles
    (names : List Nat) :
    ∃ founds, s.scanFiles f names = .ok founds ∧ founds.map Prod.fst = names ∧
      ∀ x ∈ founds, (s.bytesOf x.1 = [] ∧ x.2.1 = []) ∨ (Layout f (s.bytesOf x.1) x.2.1 ∧ Layout f x.2.2 x.2.1) := by
  induction names with
  | nil => exact ⟨[], rfl, rfl, by simp⟩
  | cons name rest ih =>
    obtain ⟨founds, hok, hnames, hfounds⟩ := ih
    have hone : ∃ found, scanSegmentFile f s.acceptUnversioned (s.bytesOf name) = .ok found ∧
        ((s.bytesOf name = [] ∧ found.1 = []) ∨ (Layout f (s.bytesOf name) found.1 ∧ Layout f found.2 found.1)) := by
      rcases hi.files name with hempty | ⟨rs, hlay⟩
      · exact ⟨([], []), by rw [hempty, scanSegmentFile_nil], .inl ⟨hempty, rfl⟩⟩
      · obtain ⟨-, -, hfits, -⟩ := id hlay
        exact ⟨_, hlay.scanSegmentFile s.acceptUnversioned, .inr ⟨hlay, [], by simp, hfits, f.decode_nil⟩⟩
    obtain ⟨found, hscan, hfound⟩ := hone
    refine ⟨(name, found) :: founds, ?_, ?_, ?_⟩
    · simp only [SegmentStore.scanFiles, hscan, hok]
    · rw [map_cons, hnames]
    · exact forall_mem_cons.2 ⟨hfound, hfounds⟩

omit hi in
theorem lookup_foldl_insert (founds : List (Nat × List α × List UInt8)) :
    ∀ (files : SegmentFiles) (name : Nat),
      ((founds.foldl (fun files x => files.insert x.1 x.2.2) files).lookup name =
          files.lookup name ∧ ∀ x ∈ founds, x.1 ≠ name) ∨
      ∃ x ∈ founds, x.1 = name ∧
        (founds.foldl (fun files x => files.insert x.1 x.2.2) files).lookup name = some x.2.2 := by
  induction founds with
  | nil => intro files name; exact .inl ⟨rfl, by simp⟩
  | cons x rest ih =>
    intro files name
    rw [foldl_cons]
    rcases ih (files.insert x.1 x.2.2) name with ⟨hsame, hne⟩ | ⟨y, hy, hname, hlook⟩
    · by_cases hx : x.1 = name
      · refine .inr ⟨x, mem_cons_self, hx, ?_⟩
        rw [hsame, ← hx, lookup_insert]
      · refine .inl ⟨by rw [hsame, lookup_insert_ne (Ne.symm hx)], ?_⟩
        exact forall_mem_cons.2 ⟨hx, hne⟩
    · exact .inr ⟨y, mem_cons_of_mem _ hy, hname, hlook⟩

omit hi in
/-- A file of the reopened store is empty and was not scanned to any records, or is
one of those that were. -/
theorem SegmentStore.bytesOf_reopened (s : SegmentStore) (founds : List (Nat × List α × List UInt8))
    (name : Nat) :
    ((s.reopened key founds).bytesOf name = [] ∧ ∀ x ∈ founds, x.2.1 ≠ [] → x.1 ≠ name) ∨
      ∃ x ∈ founds, x.1 = name ∧ x.2.1 ≠ [] ∧ (s.reopened key founds).bytesOf name = x.2.2 := by
  have hmem : ∀ x, x ∈ founds.filter (fun x => !x.2.1.isEmpty) ↔ x ∈ founds ∧ x.2.1 ≠ [] := by
    simp [mem_filter]
  unfold bytesOf reopened
  rcases lookup_foldl_insert (founds.filter fun x => !x.2.1.isEmpty) ∅ name with
    ⟨hsame, hne⟩ | ⟨x, hx, hname, hlook⟩
  · refine .inl ⟨by rw [hsame]; rfl, fun x hx hrs => hne x ((hmem x).2 ⟨hx, hrs⟩)⟩
  · exact .inr ⟨x, ((hmem x).1 hx).1, hname, ((hmem x).1 hx).2, by rw [hlook]; rfl⟩

/-- Reopening an intact store succeeds, returns every acknowledged record, and
leaves an intact store. -/
theorem Intact.reopen :
    ∃ s' records, s.reopen f key = .ok (s', records) ∧ (∀ r ∈ acked, r ∈ records) ∧ Intact f s' acked := by
  obtain ⟨founds, hok, hnames, hfounds⟩ :=
    hi.scanFiles (s.files.keys.insertionSort fun m n => segmentNameLe m n = true)
  have hlay (x) (hx : x ∈ founds) (hne : x.2.1 ≠ []) : Layout f (s.bytesOf x.1) x.2.1 ∧ Layout f x.2.2 x.2.1 :=
    (hfounds x hx).resolve_left fun h => hne h.2
  -- an acknowledged record is among those its file is scanned to
  have hfind (r) (hr : r ∈ acked) : ∃ x ∈ founds, r ∈ x.2.1 := by
    obtain ⟨name, rs, hrs, hmem⟩ := hi.acked r hr
    have hname : name ∈ founds.map Prod.fst := by
      rw [hnames, mem_insertionSort]
      refine mem_keys.1 (lookup_isSome.1 ?_)
      by_contra hnone
      refine hrs.ne_nil ?_
      rw [bytesOf, not_isSome_iff_eq_none.1 hnone, getD_none]
    obtain ⟨x, hx, rfl⟩ := mem_map.1 hname
    rcases hfounds x hx with ⟨hempty, -⟩ | ⟨hlay', -⟩
    · exact absurd hempty hrs.ne_nil
    · exact ⟨x, hx, by rwa [hlay'.unique hrs]⟩
  refine ⟨s.reopened key founds, founds.flatMap fun x => x.2.1, ?_, ?_, ?_, ?_, ?_⟩
  · simp only [SegmentStore.reopen, hok]
  · intro r hr
    obtain ⟨x, hx, hmem⟩ := hfind r hr
    exact mem_flatMap.2 ⟨x, hx, hmem⟩
  · intro name
    rcases s.bytesOf_reopened key founds name with ⟨hempty, -⟩ | ⟨x, hx, -, hne, hb⟩
    · exact .inl hempty
    · exact .inr ⟨x.2.1, hb ▸ (hlay x hx hne).2⟩
  · intro m hm
    simp [reopened] at hm
  · intro r hr
    obtain ⟨x, hx, hmem⟩ := hfind r hr
    have hne : x.2.1 ≠ [] := ne_nil_of_mem hmem
    rcases s.bytesOf_reopened key founds x.1 with ⟨-, hnone⟩ | ⟨y, hy, hname, hne', hb⟩
    · exact absurd rfl (hnone x hx hne)
    · have hyx : y.2.1 = x.2.1 := by
        refine (hlay y hy hne').1.unique ?_
        rw [hname]
        exact (hlay x hx hne).1
      exact ⟨x.1, y.2.1, hb ▸ (hlay y hy hne').2, by rwa [hyx]⟩

end

theorem intact_step (h : AckedStore α) (e : StoreCall α) (h' : AckedStore α)
    (hi : Intact f h.s (h.unsynced ++ h.synced)) (hok : h.Cleanly f key e)
    (hs : h.step f key e = some h') : Intact f h'.s (h'.unsynced ++ h'.synced) := by
  have hsub : ∀ {s : SegmentStore} {acked acked' : List α}, Intact f s acked → acked' ⊆ acked →
      Intact f s acked' := fun hi hsub => ⟨hi.files, hi.active, fun r hr => hi.acked r (hsub hr)⟩
  cases e with
  | append r faults =>
    cases hs
    refine hsub (hi.append key hok) fun r' hr' => ?_
    split at hr'
    · next hret =>
      rw [if_pos hret]
      simp only [mem_append] at hr' ⊢
      tauto
    · exact mem_append_left _ hr'
  | sync syncFails =>
    simp only [AckedStore.step] at hs
    split at hs <;> cases hs
    · refine hsub hi fun r hr => ?_
      simp only [nil_append, mem_append] at hr ⊢
      exact hr.symm
    · exact hi
  | appendBatch records syncFails =>
    cases hs
    refine hsub (hi.appendBatch key syncFails records hok) fun r hr => ?_
    split at hr
    · next hret =>
      rw [if_pos hret]
      simp only [mem_append] at hr ⊢
      tauto
    · exact mem_append_left _ hr
  | reopen =>
    obtain ⟨s', records, hre, -, hi'⟩ := hi.reopen key
    simp only [AckedStore.step, hre] at hs
    cases hs
    exact hsub hi' fun r hr => mem_append_right _ (by simpa using hr)

/-- In every run of clean calls, reopening returns every synced record. -/
theorem survives_of_cleanly {h : AckedStore α} (hnew : s.files = ∅) (hclosed : s.active = none)
    (hr : Reach (· = { s }) (AckedStore.step f key) (AckedStore.Cleanly f key) h) : h.Survives f key := by
  have hi : Intact f h.s (h.unsynced ++ h.synced) := by
    refine hr.inv ?_ (intact_step key)
    rintro _ rfl
    refine ⟨fun name => .inl ?_, by simp [hclosed], by simp⟩
    simp [bytesOf, hnew]
  obtain ⟨s', records, hre, hall, -⟩ := hi.reopen key
  exact ⟨s', records, hre, fun r hr => hall r (mem_append_right _ hr)⟩

end

/-- **Clean failures lose no synced record.** In every run of a
`ClientSegmentStore` and of a `LogSegmentStore` from an empty directory, with any
faults and any number of reopenings, in which each append that stays in its file
finds the file at a record boundary and each rotation is clean, reopening
succeeds and returns every record of every call that returned nil and was
synced. -/
theorem acked_survive_reopen {s : SegmentStore} (hnew : s.files = ∅) (hclosed : s.active = none) :
    (∀ h, Reach (· = { s }) (AckedStore.step clientFormat ClientRecord.streamSeq)
        (AckedStore.Cleanly clientFormat ClientRecord.streamSeq) h →
      h.Survives clientFormat ClientRecord.streamSeq) ∧
    (∀ h, Reach (· = { s }) (AckedStore.step logFormat LogRecord.position)
        (AckedStore.Cleanly logFormat LogRecord.position) h → h.Survives logFormat LogRecord.position) :=
  ⟨fun _ hr => survives_of_cleanly _ hnew hclosed hr, fun _ hr => survives_of_cleanly _ hnew hclosed hr⟩

/-- Every segment holds one record; the second write is torn, and the store is
reopened before the third. -/
def cleanAppends : List (StoreCall ClientRecord) :=
  [.append ⟨7, 1, []⟩ {}, .sync false, .append ⟨7, 2, []⟩ { write := some 5 }, .reopen,
   .append ⟨7, 3, []⟩ {}, .sync false]

def cleanBatches : List (StoreCall LogRecord) :=
  [.appendBatch [(⟨1, 7, 1, []⟩, {}), (⟨2, 7, 2, []⟩, { openFails := true })] false,
   .appendBatch [(⟨3, 7, 2, []⟩, {})] false]

theorem acked_survive_clean_runs :
    (∃ h : AckedStore ClientRecord, h.synced = [⟨7, 1, []⟩, ⟨7, 3, []⟩] ∧
      h.Survives clientFormat ClientRecord.streamSeq) ∧
    (∃ h : AckedStore LogRecord, h.synced = [⟨3, 7, 2, []⟩] ∧ h.Survives logFormat LogRecord.position) :=
  ⟨⟨(exec _ { s := { maxSegmentSize := 60 } } cleanAppends).get (by decide +kernel),
      by decide +kernel, (acked_survive_reopen (s := { maxSegmentSize := 60 }) rfl rfl).1 _
        (Reach.exec (.start rfl) (by decide +kernel) (some_get _).symm)⟩,
    ⟨(exec _ { s := { maxSegmentSize := 60 } } cleanBatches).get (by decide +kernel),
      by decide +kernel, (acked_survive_reopen (s := { maxSegmentSize := 60 }) rfl rfl).2 _
        (Reach.exec (.start rfl) (by decide +kernel) (some_get _).symm)⟩⟩

/-- The write of the second record fails after one byte; the third is appended
behind it and synced. -/
def tornAppends : List (StoreCall ClientRecord) :=
  [.append ⟨7, 1, []⟩ {}, .append ⟨7, 2, []⟩ { write := some 1 }, .append ⟨7, 3, []⟩ {}, .sync false]

/-- The same in the buffer's store: a batch fails after one byte of its second
record, and the batch after it returns nil. -/
def tornBatches : List (StoreCall LogRecord) :=
  [.appendBatch [(⟨1, 7, 1, []⟩, {}), (⟨2, 7, 2, []⟩, { write := some 1 })] false,
   .appendBatch [(⟨3, 7, 2, []⟩, {})] false]

/-- Reopening returns the records before the torn bytes only, though later ones
were synced. -/
theorem torn_write_loses_synced :
    (∃ h, Reach (· = { s := { maxSegmentSize := 1000 } }) (AckedStore.step clientFormat ClientRecord.streamSeq) always h ∧
      ¬ h.Survives clientFormat ClientRecord.streamSeq) ∧
    (∃ h, Reach (· = { s := { maxSegmentSize := 1000 } }) (AckedStore.step logFormat LogRecord.position) always h ∧
      ¬ h.Survives logFormat LogRecord.position) :=
  ⟨⟨(exec _ _ tornAppends).get (by decide +kernel), Reach.of_exec rfl (some_get _).symm, by decide +kernel⟩,
    ⟨(exec _ _ tornBatches).get (by decide +kernel), Reach.of_exec rfl (some_get _).symm, by decide +kernel⟩⟩

end InClusterStorage.Wal
