import InClusterStorage.Lib.Runs
import InClusterStorage.Controller.FileCounts
import InClusterStorage.Controller.Handles

/- `Unlink` and the calls between its two sections. The first section finds the inode of
   the name, the second one looks the name up again, and then removes the entry as it
   is by now together with a link of the inode that was found before. Between the two,
   another call can have given the name to another inode.

   `counted_iff`: along every interleaving of unlinks with complete calls, the entries
   refer to rows and files count their entries exactly if every second section finds
   the inode of the first one under the name, and no call is a link of a file without
   links or a rename from one link of an inode to another. -/
namespace InClusterStorage.Controller

open Volume Table List Runs

/-! The machine. -/

structure Unlinking where
  parent : Nat
  name : Name
  childIno : Nat
  /-- what is staged for the inode is dropped -/
  dropped : Bool := false
  deriving DecidableEq, Repr

structure UnlinkState where
  volume : Volume
  unlinking : List Unlinking := []

inductive UnlinkEvent where
  | names (call : NamespaceCall) (ok : Bool)
  | openInode (inodeID : Nat)
  | release (inodeID fh : Nat)
  | resolve (parent : Nat) (name : Name)
  | drop (i : Nat)
  | remove (i : Nat) (ok : Bool)
  deriving DecidableEq, Repr

/-- `Open`, once it is through the barrier. -/
def Volume.openRow (inodeID : Nat) (v : Volume) : Volume :=
  let ino := v.normalizeInodeID inodeID
  match v.inodes.lookup ino with
  | none => v
  | some node => ((v.loaded ino node).allocFh ino).1

namespace UnlinkState

def step (s : UnlinkState) : UnlinkEvent → Option UnlinkState
  | .names call ok => (s.volume.serve ok call).map fun result => { s with volume := result.1 }
  | .openInode inodeID => some { s with volume := s.volume.openRow inodeID }
  | .release inodeID fh => some { s with volume := s.volume.release inodeID fh }
  | .resolve parent name =>
    match s.volume.unlinkResolve parent name with
    | (v, .error _) => some { s with volume := v }
    | (v, .ok childIno) => some { volume := v, unlinking := s.unlinking ++ [{ parent, name, childIno }] }
  | .drop i =>
    match s.unlinking[i]? with
    | some u =>
      if u.dropped then none
      else some { volume := s.volume.unlinkDrop u.childIno, unlinking := s.unlinking.set i { u with dropped := true } }
    | none => none
  | .remove i ok =>
    match s.unlinking[i]? with
    | some u =>
      if u.dropped then
        some { volume := (s.volume.unlinkRemove ok u.parent u.name u.childIno).1, unlinking := s.unlinking.eraseIdx i }
      else none
    | none => none

/-- A new volume, and nobody unlinks. -/
def init (closeToOpen requirePermanent : Bool) : UnlinkState := { volume := Volume.init closeToOpen requirePermanent }

/-- The name still refers to the inode that was found; or it refers to a directory, and
the inode that was found has no links any more. -/
def NameKept (v : Volume) (u : Unlinking) : Prop :=
  ∀ de row, v.dirEntries.lookup (v.normalizeInodeID u.parent, u.name) = some de →
    v.inodes.lookup u.childIno = some row → de.ino = u.childIno ∨
      row.nlink = 0 ∧ ∃ dir, v.inodes.lookup de.ino = some dir ∧ dir.isDir = true

def Careful (s : UnlinkState) : UnlinkEvent → Prop
  | .names call ok =>
    (∀ ino row, s.volume.does ok call = .linked ino → s.volume.inodes.lookup ino = some row → row.nlink ≠ 0) ∧
      ∀ m, s.volume.does ok call = .renamed m → m.replaces = true → ∀ row, m.target ≠ some (m.childIno, row)
  | .remove i ok => ok = true → ∀ u, s.unlinking[i]? = some u → NameKept s.volume u
  | _ => True

/-- Entries refer to rows, files count their entries, and a file without links is open. -/
structure Counted (s : UnlinkState) : Prop where
  counts : FileCounts s.volume
  orphans : NoOrphans s.volume

end UnlinkState

/-! The second section. -/

variable {v v' : Volume} {parent : Nat} {name : Name} {de : DirEntry} {ino : Nat} {row parentInode : Inode}

section

variable (h : Unlinks v v' parent name de ino row parentInode)
include h

theorem Unlinks.row_other (hv : Sound v) {i : Nat}
    {row' : Inode} (hi : v.inodes.lookup i = some row') (hfile : row'.isDir = false) (hne : i ≠ ino) :
    v'.inodes.lookup i = some row' := by
  have hparent : i ≠ parent := by
    rintro rfl
    cases hfile.symm.trans (hv.parentDir h.entry hi)
  rw [h.inodes, lookup_insert, if_neg hparent]
  split_ifs
  · rwa [lookup_erase, if_neg hne]
  · rwa [lookup_insert, if_neg hne]

variable (hv : Sound v) (hfile : row.isDir = false)
include hv hfile

/-- The entry that is removed is that of another inode. -/
theorem Unlinks.not_fileCounts (hc : FileCounts v) (hne : de.ino ≠ ino)
    (hbad : row.nlink ≠ 0 ∨ ∃ other, v.inodes.lookup de.ino = some other ∧ other.isDir = false) : ¬ FileCounts v' := by
  intro hc'
  have hrefs := refs_erase h.entry h.dirEntries
  obtain hlinks | ⟨other, hother, hofile⟩ := hbad
  · have hsame := hrefs ino
    rw [if_neg hne] at hsame
    have hold := hc.files ino row h.child hfile
    have hpos : 0 < v'.refs ino := by omega
    obtain ⟨key, de', hkey, hde'⟩ := refs_pos.1 hpos
    obtain ⟨row', hrow'⟩ := hc'.rows key de' hkey
    rw [hde'] at hrow'
    -- the row counts one link less, or it is gone
    have hchange := h.rowEffect hv hfile ino 0
    rw [h.child, hrow', if_pos rfl] at hchange
    have hnew := hc'.files ino row' hrow'
    cases hchange with
    | kept _ _ kind file => simpa [Done.Relinks] using (file hfile).2
    | new _ _ next => exact absurd (hv.fresh ino row h.child) (by omega)
    | linked _ _ done => cases done
    | unlinked =>
      have := hnew hfile
      rw [unlinked_nlink] at this
      omega
  · have hless := hrefs de.ino
    rw [if_pos rfl] at hless
    have hold := hc.files de.ino other hother hofile
    have hnew := hc'.files de.ino other (h.row_other hv hother hofile hne) hofile
    omega

/-- The entry of a directory is removed, and the inode that was found has no links to lose. -/
theorem Unlinks.fileCounts_of_dir (hc : FileCounts v) (honce : DirsOnce v) (hno : NoOrphans v)
    (hzero : row.nlink = 0) {dir : Inode} (hdir : v.inodes.lookup de.ino = some dir) (hisDir : dir.isDir = true) :
    FileCounts v' := by
  have hopen := hno ino row h.child hfile hzero
  have hinodes : v'.inodes = (v.inodes.insert ino row.unlinked).insert parent parentInode := by
    rw [h.inodes, if_neg]
    rw [hopen]
    exact fun hand => Bool.noConfusion hand.2
  have hrefs {i} (hne : i ≠ de.ino) : v'.refs i = v.refs i := by
    have := refs_erase h.entry h.dirEntries i
    rw [if_neg (Ne.symm hne)] at this
    exact this.symm
  refine hc.of_changes (d := .plain) hv honce (fun i _ _ hb ha => ?_) nofun fun _ ⟨_, _, hd, _⟩ => nomatch hd
  subst hb ha
  rw [hinodes, lookup_insert, lookup_insert]
  split_ifs with hp hn
  · rw [hp, h.parentRow]
    exact .dir (hv.parentDir h.entry h.parentRow) rfl rfl
  · subst hn
    have hne : i ≠ de.ino := by
      rintro rfl
      cases hdir.symm.trans h.child
      simp [hfile] at hisDir
    rw [h.child]
    exact .kept row _ rfl (fun _ => ⟨by rw [unlinked_nlink, hzero], .inl (hrefs hne)⟩) (.inl rfl)
  · by_cases hd : i = de.ino
    · rw [hd, hdir]
      exact .dir hisDir rfl rfl
    · exact .same _ (hrefs hd)

theorem Unlinks.sound (hframe : v.Framed v') : Sound v' := by
  refine hv.of_keeps hframe (h.rowEffects hv hfile).keepsKinds (h.rowEffects hv hfile).keepsRows fun e he => ?_
  rw [h.dirEntries, mem_entries_erase] at he
  exact .inl he.2

theorem Unlinks.dirsOnce (honce : DirsOnce v) : DirsOnce v' := by
  intro i row' hi hdir
  have hrefs := refs_erase h.entry h.dirEntries i
  obtain ⟨hnext, -⟩ | ⟨row₀, hrow₀, hkind⟩ := (h.rowEffects hv hfile).keepsKinds i row' hi
  · have := hv.refs_next
    rw [hnext] at hrefs ⊢
    omega
  · have := honce i row₀ hrow₀ (hkind.symm.trans hdir)
    omega

end

/-! Handles. -/

theorem openRow_cases (inodeID : Nat) (v : Volume) : ∃ v', v.SameRows v' ∧ (v.openRow inodeID = v' ∨
    v.openRow inodeID = (v'.allocFh (v.normalizeInodeID inodeID)).1) := by
  unfold openRow
  dsimp only
  split
  · exact ⟨v, .refl v, .inl rfl⟩
  · exact ⟨_, loaded_sameRows _ _ v, .inr rfl⟩

theorem FileCounts.of_rows (hc : FileCounts v) (inodes : v'.inodes = v.inodes) (dirEntries : v'.dirEntries = v.dirEntries) :
    FileCounts v' :=
  ⟨by rw [inodes, dirEntries]; exact hc.rows, by unfold refs; rw [inodes, dirEntries]; exact hc.files⟩

theorem Released.fileCounts (h : Released v v' ino) (hc : FileCounts v) : FileCounts v' := by
  obtain ⟨hinodes, -⟩ | ⟨hinodes, -, row, hrow, hfile, hzero⟩ := h.inodes
  · exact hc.of_rows hinodes h.dirEntries
  -- nothing refers to a file without links
  have hnone : v.refs ino = 0 := (hc.files ino row hrow hfile).symm.trans hzero
  constructor
  · intro key de hkey
    rw [h.dirEntries] at hkey
    rw [hinodes, lookup_erase, if_neg (refs_eq_zero.1 hnone key de hkey)]
    exact hc.rows key de hkey
  · intro i row' hi hf
    rw [refs, h.dirEntries]
    exact hc.files i row' (lookup_of_erase (hinodes ▸ hi)) hf

theorem Released.noOrphans (h : Released v v' ino) (hno : NoOrphans v) : NoOrphans v' := by
  intro i row' hi hf hzero
  have hrow := h.rows i row' hi
  have hopen := hasOpenHandles_iff.1 (hno i row' hrow hf hzero)
  apply hasOpenHandles_iff.2
  rw [h.openCount]
  split_ifs with heq
  · -- the row would be gone with the last handle
    subst heq
    obtain ⟨-, hmany | hkept⟩ | ⟨hinodes, -⟩ := h.inodes
    · omega
    · obtain hdir | hlinks := hkept row' hrow
      · rw [hdir] at hf
        cases hf
      · exact absurd hzero hlinks
    · rw [hinodes, lookup_erase, if_pos rfl] at hi
      cases hi
  · omega

theorem Released.dirsOnce (h : Released v v' ino) (honce : DirsOnce v) : DirsOnce v' := by
  intro i row hi hdir
  rw [refs, h.dirEntries]
  exact honce i row (h.rows i row hi) hdir

/-! Interleavings. -/

/-- The inode that was found is a file, if it is still there. -/
def FoundFile (v : Volume) (u : Unlinking) : Prop :=
  u.childIno < v.nextInode ∧ ∀ row, v.inodes.lookup u.childIno = some row → row.isDir = false

/-- What every event keeps. -/
structure Steady (s : UnlinkState) : Prop where
  sound : Sound s.volume
  once : DirsOnce s.volume
  found : ∀ u ∈ s.unlinking, FoundFile s.volume u

theorem FoundFile.kept {u : Unlinking} (h : FoundFile v u) (hkinds : KeepsKinds v v')
    (hnext : v.nextInode ≤ v'.nextInode) : FoundFile v' u := by
  refine ⟨lt_of_lt_of_le h.1 hnext, fun row' hrow' => ?_⟩
  obtain ⟨heq, -⟩ | ⟨row, hrow, hkind⟩ := hkinds _ row' hrow'
  · have := h.1
    omega
  · rw [hkind]
    exact h.2 row hrow

theorem KeepsKinds.of_subset (h : ∀ i row, v'.inodes.lookup i = some row → v.inodes.lookup i = some row) :
    KeepsKinds v v' := fun i row hi => .inr ⟨row, h i row hi, rfl⟩

theorem Volume.SameRows.dirsOnce (h : v.SameRows v') (honce : DirsOnce v) : DirsOnce v' := by
  intro i row hi hdir
  rw [refs, h.dirEntries]
  exact honce i row (h.inodes ▸ hi) hdir

theorem Volume.SameRows.noOrphans (h : v.SameRows v') (hno : NoOrphans v) : NoOrphans v' := by
  intro i row hi hfile hzero
  rw [h.hasOpenHandles]
  exact hno i row (h.inodes ▸ hi) hfile hzero

namespace UnlinkState

variable {s s' : UnlinkState}

theorem Steady.of_sameRows (h : s.volume.SameRows s'.volume) (hs : Steady s)
    (hfound : ∀ u ∈ s'.unlinking, u ∈ s.unlinking ∨ FoundFile s.volume u) : Steady s' := by
  have hkept : ∀ u, FoundFile s.volume u → FoundFile s'.volume u := fun u hu =>
    hu.kept (.of_subset fun i row hi => h.inodes ▸ hi) h.nextInode
  refine ⟨hs.sound.of_same h.dirEntries h.rootInodeID h.inodes h.sameNext, h.dirsOnce hs.once, fun u hu => ?_⟩
  obtain hold | hnew := hfound u hu
  · exact hkept u (hs.found u hold)
  · exact hkept u hnew

theorem Counted.of_sameRows (h : s.volume.SameRows s'.volume) (hc : s.Counted) : s'.Counted :=
  ⟨hc.counts.of_rows h.inodes h.dirEntries, h.noOrphans hc.orphans⟩

/-- The second section keeps the counts exactly if the name is kept. -/
theorem remove_counted {i : Nat} {ok : Bool} (hs : Steady s) (hc : s.Counted)
    (h : s.step (.remove i ok) = some s') : s'.Counted ↔ s.Careful (.remove i ok) := by
  dsimp only [step] at h
  split at h
  · rename_i u hu
    split_ifs at h
    cases h
    have hcareful : s.Careful (.remove i ok) ↔ (ok = true → NameKept s.volume u) := by
      constructor
      · exact fun hall hok => hall hok u hu
      · intro hkept hok u' hu'
        cases hu.symm.trans hu'
        exact hkept hok
    rw [hcareful]
    obtain ⟨hsame, hfails, -⟩ | ⟨⟨hok, -⟩, hframe, -, de, row, parentInode, hun⟩ :=
      unlinkRemove_cases ok u.parent u.name u.childIno s.volume
    · refine iff_of_true (Counted.of_sameRows hsame hc) fun hok de row hde hrow => ?_
      -- the parent of an entry is there
      obtain ⟨prow, hprow, -⟩ := hs.sound.parents ⟨_, de⟩ (mem_entries.2 hde)
      cases hprow.symm.trans (hfails hok de row hde hrow)
    · have hfile := (hs.found u (mem_of_getElem? hu)).2 row hun.child
      refine ⟨fun hcounted _ de' row' hde' hrow' => ?_, fun hkept => ?_⟩
      · cases hun.entry.symm.trans hde'
        cases hun.child.symm.trans hrow'
        by_contra hnot
        obtain ⟨hne, hdir⟩ := not_or.1 hnot
        obtain ⟨other, hother⟩ := hc.counts.rows _ de hun.entry
        refine hun.not_fileCounts hs.sound hfile hc.counts hne ?_ hcounted.counts
        by_cases hzero : row.nlink = 0
        · right
          refine ⟨other, hother, ?_⟩
          by_contra hodir
          exact hdir ⟨hzero, other, hother, by simpa using hodir⟩
        · exact .inl hzero
      · refine ⟨?_, (hun.rowEffects hs.sound hfile).noOrphans hframe hc.orphans⟩
        obtain heq | ⟨hzero, dir, hdir, hisDir⟩ := hkept hok de row hun.entry hun.child
        · exact hun.fileCounts hc.counts hs.sound hs.once hfile heq
        · exact hun.fileCounts_of_dir hs.sound hfile hc.counts hs.once hc.orphans hzero hdir hisDir
  · cases h

/-- Every event keeps the rows sound, and a careful one the counts. -/
theorem step_steady {e : UnlinkEvent} (hs : Steady s) (h : s.step e = some s') :
    Steady s' ∧ (s.Counted → s.Careful e → s'.Counted) := by
  have hsame : s.volume.SameRows s'.volume → (∀ u ∈ s'.unlinking, u ∈ s.unlinking ∨ FoundFile s.volume u) →
      Steady s' ∧ (s.Counted → s.Careful e → s'.Counted) :=
    fun hsame hfound => ⟨Steady.of_sameRows hsame hs hfound, fun hc _ => Counted.of_sameRows hsame hc⟩
  cases e with
  | names call ok =>
    obtain ⟨⟨w, r⟩, hserve, rfl⟩ := Option.map_eq_some_iff.1 h
    have hout := serve_outcome hserve
    exact ⟨⟨hout.sound hs.sound, hout.dirsOnce hs.sound hs.once,
        fun u hu => (hs.found u hu).kept (hout.keepsKinds hs.sound) hout.nextInode⟩,
      fun hc hcareful => ⟨hout.fileCounts hc.counts hs.sound hs.once hcareful.1 hcareful.2,
        (hout.rowEffects hs.sound).noOrphans hout.toFramed hc.orphans⟩⟩
  | openInode inodeID =>
    cases h
    obtain ⟨w, hrows, heq | heq⟩ := openRow_cases inodeID s.volume
    · exact hsame (heq ▸ hrows) fun u hu => .inl hu
    have hw : Steady { s with volume := w } := Steady.of_sameRows hrows hs fun u hu => .inl hu
    rw [heq]
    refine ⟨⟨hw.sound.of_same rfl rfl rfl rfl, hw.once, hw.found⟩, fun hc _ => ?_⟩
    have hcw : Counted { s with volume := w } := Counted.of_sameRows hrows hc
    refine ⟨hcw.counts.of_rows rfl rfl, fun i row hi hfile hzero => ?_⟩
    have hopen := hasOpenHandles_iff.1 (hcw.orphans i row hi hfile hzero)
    apply hasOpenHandles_iff.2
    rw [allocFh_openCount]
    exact lt_of_lt_of_le hopen (Nat.le_add_right _ _)
  | release inodeID fh =>
    cases h
    obtain ⟨hrel, -⟩ := release_released inodeID fh s.volume
    exact ⟨⟨hrel.sound hs.sound, hrel.dirsOnce hs.once,
        fun u hu => (hs.found u hu).kept (.of_subset hrel.rows) (le_of_eq hrel.nextInode.symm)⟩,
      fun hc _ => ⟨hrel.fileCounts hc.counts, hrel.noOrphans hc.orphans⟩⟩
  | resolve parent name =>
    have hrows := unlinkResolve_loads parent name s.volume
    have hfound : ∀ ino, (s.volume.unlinkResolve parent name).2 = .ok ino →
        ∃ de row, s.volume.dirEntries.lookup (s.volume.normalizeInodeID parent, name) = some de ∧ de.ino = ino ∧
          s.volume.inodes.lookup ino = some row ∧ row.isDir = false := fun _ => unlinkResolve_ok
    dsimp only [step] at h
    generalize s.volume.unlinkResolve parent name = result at h hrows hfound
    obtain ⟨w, res⟩ := result
    cases res with
    | error err =>
      cases h
      exact hsame hrows fun u hu => .inl hu
    | ok ino =>
      cases h
      refine hsame hrows fun u hu => ?_
      obtain hold | hnew := mem_append.1 hu
      · exact .inl hold
      obtain ⟨de, row, -, -, hrow, hfile⟩ := hfound ino rfl
      cases mem_singleton.1 hnew
      refine .inr ⟨hs.sound.fresh ino row hrow, fun row' hrow' => ?_⟩
      cases hrow.symm.trans hrow'
      exact hfile
  | drop i =>
    dsimp only [step] at h
    split at h
    · rename_i u hu
      split_ifs at h
      cases h
      refine ⟨⟨hs.sound.of_same rfl rfl rfl rfl, hs.once, fun u' hu' => ?_⟩,
        fun hc _ => ⟨hc.counts.of_rows rfl rfl, hc.orphans⟩⟩
      obtain hmem | rfl := mem_or_eq_of_mem_set hu'
      · exact hs.found u' hmem
      · exact hs.found u (mem_of_getElem? hu)
    · cases h
  | remove i ok =>
    refine ⟨?_, fun hc => (remove_counted hs hc h).2⟩
    dsimp only [step] at h
    split at h
    · rename_i u hu
      split_ifs at h
      cases h
      have hrest (u') (hu' : u' ∈ s.unlinking.eraseIdx i) : u' ∈ s.unlinking := mem_of_mem_eraseIdx hu'
      obtain ⟨hrows, -⟩ | ⟨-, hframe, -, de, row, parentInode, hun⟩ :=
        unlinkRemove_cases ok u.parent u.name u.childIno s.volume
      · exact Steady.of_sameRows hrows hs fun u' hu' => .inl (hrest u' hu')
      · have hfile := (hs.found u (mem_of_getElem? hu)).2 row hun.child
        exact ⟨hun.sound hs.sound hfile hframe, hun.dirsOnce hs.sound hfile hs.once,
          fun u' hu' => (hs.found u' (hrest u' hu')).kept (hun.rowEffects hs.sound hfile).keepsKinds hframe.nextInode⟩
    · cases h

/-- A link of a file without links, and a rename between two links, break the counts. -/
theorem names_breaks {call : NamespaceCall} {ok : Bool} (hs : Steady s) (hc : s.Counted)
    (hcareless : ¬ s.Careful (.names call ok)) (h : s.step (.names call ok) = some s') : ¬ s'.Counted := by
  intro hc'
  obtain ⟨⟨w, r⟩, hserve, rfl⟩ := Option.map_eq_some_iff.1 h
  have hout := serve_outcome hserve
  apply hcareless
  refine ⟨fun ino row hdone hrow hzero => ?_, fun m hdone hrep row htarget => ?_⟩
  · rw [hdone] at hout
    exact hout.not_fileCounts_of_linked hc.counts hrow hzero hc'.counts
  · rw [hdone] at hout
    cases hout.effect with
    | renamed _ w' renames => exact renames.not_fileCounts hs.sound hc.counts hs.once hrep htarget hc'.counts

theorem init_steady (closeToOpen requirePermanent : Bool) : Steady (init closeToOpen requirePermanent) :=
  ⟨init_sound closeToOpen requirePermanent, fun _ _ _ _ => Nat.zero_le 1, nofun⟩

theorem init_counted (closeToOpen requirePermanent : Bool) : (init closeToOpen requirePermanent).Counted := by
  refine ⟨⟨nofun, fun i row hi hfile => ?_⟩, fun i row hi hfile => ?_⟩
  · rw [(init_inodes hi).2] at hfile
    cases hfile
  · rw [(init_inodes hi).2] at hfile
    cases hfile

/-- **Unlinks and the calls between their sections.** Along every interleaving, entries
refer to rows and files count their entries after each event exactly if every second
section finds its inode under the name, no file without links is linked, and no rename is
from one link of an inode to another. -/
theorem counted_iff (closeToOpen requirePermanent : Bool) (events : List UnlinkEvent) :
    Throughout step Counted (init closeToOpen requirePermanent) events ↔
      Allowed step Careful (init closeToOpen requirePermanent) events := by
  refine throughout_iff_allowed_of_breaks (I := Steady) ?_ ?_ events (init_steady _ _) (init_counted _ _)
  · intro s e s' hs hc hcareful h
    obtain ⟨hs', hcounted⟩ := step_steady hs h
    exact ⟨hs', hcounted hc hcareful⟩
  · intro s e s' hs hc hcareless h
    cases e with
    | names call ok => exact names_breaks hs hc hcareless h
    | remove i ok => exact fun hc' => hcareless ((remove_counted hs hc h).1 hc')
    | _ => exact absurd trivial hcareless

/-- Two files, of which the first has two links, `a` and `c`. While `a` is unlinked, the
second file is renamed to it. -/
def replacedRun : List UnlinkEvent :=
  [.names (.createFile 1 [97] 0) true, .names (.link 8 1 [99]) true, .names (.createFile 1 [98] 0) true,
    .resolve 1 [97], .drop 0, .names (.rename 1 [98] 1 [97]) true, .remove 0 true]

/-- **A name that is lost, and a link that is lost**: the entry `c` refers to no row, and the
second file is in no directory. -/
theorem counted_violated : ∃ s row, Reach (· = init true false) step always s ∧
    (∃ de, s.volume.dirEntries.lookup (1, [99]) = some de ∧ de.ino = 8) ∧ s.volume.inodes.lookup 8 = none ∧
    s.volume.inodes.lookup 16 = some row ∧ row.nlink = 1 ∧ s.volume.refs 16 = 0 ∧ ¬ s.Counted := by
  let s := (exec step (init true false) replacedRun).get (by decide)
  let de : DirEntry := { ino := 8, isDir := false, mode := 0o644 ||| sIfreg }
  have hentry : s.volume.dirEntries.lookup (1, [99]) = some de := by decide
  have hgone : s.volume.inodes.lookup 8 = none := by decide
  refine ⟨s, { isDir := false, mode := 0o644 ||| sIfreg, nlink := 1 }, Reach.of_exec rfl (Option.some_get _).symm,
    ⟨de, hentry, rfl⟩, hgone, by decide, rfl, by decide, fun hc => ?_⟩
  obtain ⟨row, hrow⟩ := hc.counts.rows _ de hentry
  cases hgone.symm.trans hrow

/-- **The shape of the tree.** Whatever runs between the sections of an `Unlink`, entries stand in
directories that are there, the root is one and has no name, and the others have one at most. -/
theorem names_in_directories (closeToOpen requirePermanent : Bool) (events : List UnlinkEvent) :
    Throughout step (fun s => Sound s.volume ∧ DirsOnce s.volume) (init closeToOpen requirePermanent) events :=
  throughout_of_inv (I := Steady) (fun _ h => ⟨h.sound, h.once⟩) (fun _ _ _ h hs => (step_steady h hs).1)
    (init_steady closeToOpen requirePermanent) events

end UnlinkState

end InClusterStorage.Controller
