import InClusterStorage.Controller.UnlinkSections

/- Inodes with open handles. `Open` loads the row of its inode, and registers the handle
   only after that; `Release` counts down for its inode even if it does not know the
   handle, and trusts the handle more than the inode it is called for; and directories
   are deleted whether they are open or not.

   `AllocFh` takes only `handlesMu`. It may run while a call holds `v.mu`, after the call has
   looked at the handles and before it commits: a call is two events, and what it will
   commit is `locked` between them. A call looks at the handles once.

   `guarded_of_proper`: along every interleaving of these sections with unlinks and with
   other calls, the inodes of handles that are held have rows, and `openInodes` counts the
   registered handles, if a handle is registered while the row is there and no call is about
   to delete it, each release is for a handle of its inode or for an inode that is not open,
   and no directory that is open is removed. -/
namespace InClusterStorage.Controller

open Volume Table Option Runs List

/-! The machine. -/

structure HandleState extends UnlinkState where
  /-- the inodes that an `Open` has loaded and not yet registered -/
  opening : List Nat := []
  /-- the handles that an `Open` has returned for an inode and no `Release` was called
  for -/
  held : List (Nat × Nat) := []
  /-- what the call that holds `v.mu` will commit -/
  locked : Option UnlinkState := none

inductive HandleEvent where
  /-- a namespace call, or a section of `Unlink`, up to its commit -/
  | files (e : UnlinkEvent)
  | load (inodeID : Nat)
  | allocFh (k : Nat)
  /-- `Release`, up to the end of its section of `handlesMu` -/
  | release (inodeID fh : Nat)
  /-- the call that holds `v.mu` commits and returns -/
  | finish
  deriving DecidableEq, Repr

/-- Opens and releases are events of their own. -/
def UnlinkEvent.isHandle : UnlinkEvent → Bool
  | .openInode _ | .release _ _ => true
  | _ => false

/-- How many handles of the inode are registered. -/
def Volume.registered (ino : Nat) (v : Volume) : Nat := tally (fun _ i => decide (i = ino)) v.handles

/-- The fields under `handlesMu` are those of `w`. -/
def Volume.withHandles (v w : Volume) : Volume :=
  { v with handles := w.handles, openInodes := w.openInodes, nextFh := w.nextFh }

namespace HandleState

def step (s : HandleState) : HandleEvent → Option HandleState
  | .files e =>
    if e.isHandle ∨ s.locked.isSome then none
    else (s.toUnlinkState.step e).map fun t => { s with locked := some t }
  | .load inodeID =>
    let ino := s.volume.normalizeInodeID inodeID
    if s.locked.isSome then none
    else match s.volume.inodes.lookup ino with
      | none => some s
      | some node => some { s with volume := s.volume.loaded ino node, opening := s.opening ++ [ino] }
  | .allocFh k =>
    match s.opening[k]? with
    | none => none
    | some ino =>
      let opened := s.volume.allocFh ino
      some { s with
        volume := opened.1
        opening := s.opening.eraseIdx k
        held := (s.volume.normalizeInodeID ino, opened.2) :: s.held }
  | .release inodeID fh =>
    let released := s.volume.release inodeID fh
    if s.locked.isSome then none
    else some { s with
      volume := s.volume.withHandles released
      held := s.held.filter fun h => h ≠ (s.volume.normalizeInodeID inodeID, fh)
      locked := some { s.toUnlinkState with volume := released } }
  | .finish => s.locked.map fun t =>
    { s with toUnlinkState := { t with volume := t.volume.withHandles s.volume }, locked := none }

/-- A new volume, and nobody is at work. -/
def init (closeToOpen requirePermanent : Bool) : HandleState :=
  { toUnlinkState := UnlinkState.init closeToOpen requirePermanent }

/-- The directories that the call removes are not open. -/
def SparesOpen (held : List (Nat × Nat)) : Done → Prop
  | .removed ino => ∀ h ∈ held, h.1 ≠ ino
  | .renamed m => ∀ target ∈ m.target, target.2.isDir = true → ∀ h ∈ held, h.1 ≠ target.1
  | _ => True

instance (held : List (Nat × Nat)) : ∀ d : Done, Decidable (SparesOpen held d)
  | .removed ino => inferInstanceAs (Decidable (∀ h ∈ held, h.1 ≠ ino))
  | .renamed m => inferInstanceAs (Decidable (∀ target ∈ m.target, target.2.isDir = true → ∀ h ∈ held, h.1 ≠ target.1))
  | .plain | .linked _ => isTrue trivial

def Proper (s : HandleState) : HandleEvent → Prop
  | .files (.names call ok) => SparesOpen s.held (s.volume.does ok call)
  | .allocFh k => ∀ ino ∈ s.opening[k]?, (s.volume.inodes.lookup (s.volume.normalizeInodeID ino)).isSome ∧
      ∀ t ∈ s.locked, (t.volume.inodes.lookup (s.volume.normalizeInodeID ino)).isSome
  | .release inodeID fh =>
    let ino := s.volume.normalizeInodeID inodeID
    match s.volume.handles.lookup fh with
    | some i => i = ino
    | none => s.volume.openCount ino = 0
  | _ => True

instance (s : HandleState) : ∀ e : HandleEvent, Decidable (s.Proper e)
  | .files (.names call ok) => inferInstanceAs (Decidable (SparesOpen s.held (s.volume.does ok call)))
  | .files (.openInode _) | .files (.release _ _) | .files (.resolve _ _) | .files (.drop _) | .files (.remove _ _)
  | .load _ | .finish => isTrue trivial
  | .allocFh k => inferInstanceAs
      (Decidable (∀ ino ∈ s.opening[k]?, (s.volume.inodes.lookup (s.volume.normalizeInodeID ino)).isSome ∧
        ∀ t ∈ s.locked, (t.volume.inodes.lookup (s.volume.normalizeInodeID ino)).isSome))
  | .release inodeID fh =>
    match h : s.volume.handles.lookup fh with
    | some i => decidable_of_iff (i = s.volume.normalizeInodeID inodeID) (by simp only [Proper, h])
    | none => decidable_of_iff (s.volume.openCount (s.volume.normalizeInodeID inodeID) = 0) (by simp only [Proper, h])

/-- Held handles have rows, and the open handles are counted. -/
structure Guarded (s : HandleState) : Prop where
  rows : ∀ ino fh, (ino, fh) ∈ s.held → ∃ row, s.volume.inodes.lookup ino = some row
  counts : ∀ ino, s.volume.openCount ino = s.volume.registered ino

end HandleState

/-! Rows of open inodes. -/

variable {v v' w : Volume}

/-- A row that a call deletes is that of an inode that is not open, or of a directory. -/
theorem RowEffects.closed_of_gone {d : Done} (h : RowEffects v v' d) {i : Nat} {row : Inode}
    (hi : v.inodes.lookup i = some row) (hgone : v'.inodes.lookup i = none) :
    v.hasOpenHandles i = false ∨ d = .removed i ∨
      ∃ m row, d = .renamed m ∧ m.target = some (i, row) ∧ row.isDir = true := by
  obtain ⟨r, r', hchange⟩ := h i hi hgone
  cases hchange with
  | gone _ _ file _ done =>
    cases hdir : row.isDir with
    | false => exact .inl (file hdir).2
    | true =>
      obtain ⟨-, hfile⟩ | ⟨hd, -⟩ | ⟨m, hd, htarget, -⟩ := done
      · cases hdir.symm.trans hfile
      · exact .inr (.inl hd)
      · exact .inr (.inr ⟨m, row, hd, htarget, hdir⟩)

/-- The call, if the event is one, removes the directory. -/
def RemovesDir (v : Volume) (i : Nat) : UnlinkEvent → Prop
  | .names call ok => v.does ok call = .removed i ∨
      ∃ m row, v.does ok call = .renamed m ∧ m.target = some (i, row) ∧ row.isDir = true
  | _ => False

/-- Calls and sections of `Unlink` leave rows of open inodes alone, but for directories that
a call removes. -/
theorem UnlinkState.closed_of_gone {s s' : UnlinkState} {e : UnlinkEvent} (hs : Steady s) (he : e.isHandle = false)
    (h : s.step e = some s') {i : Nat} {row : Inode} (hi : s.volume.inodes.lookup i = some row)
    (hgone : s'.volume.inodes.lookup i = none) : s.volume.hasOpenHandles i = false ∨ RemovesDir s.volume i e := by
  have hsame : s.volume.SameRows s'.volume → s.volume.hasOpenHandles i = false ∨ RemovesDir s.volume i e := by
    intro hload
    rw [hload.inodes, hi] at hgone
    cases hgone
  cases e with
  | names call ok =>
    obtain ⟨⟨w, r⟩, hserve, rfl⟩ := map_eq_some_iff.1 h
    exact ((serve_outcome hserve).rowEffects hs.sound).closed_of_gone hi hgone
  | openInode inodeID | release inodeID fh => cases he
  | resolve parent name =>
    have hload := unlinkResolve_loads parent name s.volume
    dsimp only [step] at h
    generalize s.volume.unlinkResolve parent name = result at h hload
    obtain ⟨w, res⟩ := result
    cases res with
    | error err | ok ino => cases h; exact hsame hload
  | drop i =>
    dsimp only [step] at h
    split at h
    · split_ifs at h
      cases h
      cases hi.symm.trans hgone
    · cases h
  | remove i ok =>
    dsimp only [step] at h
    split at h
    · rename_i u hu
      split_ifs at h
      cases h
      obtain ⟨hload, -⟩ | ⟨-, hframe, -, de, row, parentInode, hun⟩ :=
        unlinkRemove_cases ok u.parent u.name u.childIno s.volume
      · exact hsame hload
      · have hfile := (hs.found u (mem_of_getElem? hu)).2 row hun.child
        obtain hclosed | hd | ⟨_, _, hd, -⟩ := (hun.rowEffects hs.sound hfile).closed_of_gone hi hgone
        · exact .inl hclosed
        · cases hd
        · cases hd
    · cases h

/-! Counts. -/

theorem registered_pos {ino fh : Nat} (h : v.handles.lookup fh = some ino) : 0 < v.registered ino :=
  tally_pos.2 ⟨fh, ino, h, by simp⟩

theorem registered_two {ino fh fh' : Nat} (h : v.handles.lookup fh = some ino) (h' : v.handles.lookup fh' = some ino)
    (hne : fh ≠ fh') : 1 < v.registered ino := by
  by_contra hle
  exact hne (tally_le_one (Nat.le_of_not_lt hle) h (by simp) h' (by simp))

theorem registered_allocFh (inodeID : Nat) (hfree : v.handles.lookup (v.nextFh + 1) = none) (ino : Nat) :
    (v.allocFh inodeID).1.registered ino = v.registered ino + if ino = v.normalizeInodeID inodeID then 1 else 0 := by
  show tally _ (v.handles.insert (v.nextFh + 1) _) = _
  rw [tally_insert_of_none _ _ hfree]
  simp only [decide_eq_true_eq, eq_comm (a := ino)]
  rfl

namespace HandleState

variable {s s' : HandleState}

/-- What every event keeps, if it is proper. -/
structure Watched (s : HandleState) : Prop where
  steady : Steady s.toUnlinkState
  /-- held handles are registered -/
  registered : ∀ ino fh, (ino, fh) ∈ s.held → s.volume.handles.lookup fh = some ino
  fresh : ∀ fh ino, s.volume.handles.lookup fh = some ino → fh ≠ 0 ∧ fh ≤ s.volume.nextFh
  guarded : s.Guarded
  /-- the call that holds `v.mu` keeps the rows of held handles too -/
  locked : ∀ t ∈ s.locked, Steady t ∧ ∀ ino fh, (ino, fh) ∈ s.held → ∃ row, t.volume.inodes.lookup ino = some row

theorem Watched.open_of_held (h : Watched s) {ino fh : Nat} (hheld : (ino, fh) ∈ s.held) :
    s.volume.hasOpenHandles ino = true := by
  apply hasOpenHandles_iff.2
  rw [h.guarded.counts]
  exact registered_pos (h.registered ino fh hheld)

theorem steady_withHandles {t : UnlinkState} (h : Steady t) (w : Volume) :
    Steady { t with volume := t.volume.withHandles w } :=
  ⟨h.sound.of_same rfl rfl rfl rfl, h.once, h.found⟩

section

variable (hw : Watched s)
include hw

theorem files_watched {e : UnlinkEvent} (hp : s.Proper (.files e)) (h : s.step (.files e) = some s') : Watched s' := by
  simp only [step] at h
  split_ifs at h with he
  obtain ⟨he, -⟩ := not_or.1 he
  obtain ⟨t, ht, rfl⟩ := map_eq_some_iff.1 h
  refine ⟨hw.steady, hw.registered, hw.fresh, ⟨hw.guarded.rows, hw.guarded.counts⟩, fun t' ht' => ?_⟩
  cases ht'
  refine ⟨(UnlinkState.step_steady hw.steady ht).1, fun ino fh hheld => ?_⟩
  cases hrow' : t.volume.inodes.lookup ino with
  | some row => exact ⟨row, rfl⟩
  | none =>
    obtain ⟨row, hrow⟩ := hw.guarded.rows ino fh hheld
    obtain hclosed | hremoves := UnlinkState.closed_of_gone hw.steady (by simpa using he) ht hrow hrow'
    · rw [hw.open_of_held hheld] at hclosed
      cases hclosed
    · -- the call removes a directory that is held
      cases e with
      | names call ok =>
        obtain hdone | ⟨m, row, hdone, htarget, hdir⟩ := hremoves
        · simp only [Proper, hdone, SparesOpen] at hp
          exact absurd rfl (hp _ hheld)
        · simp only [Proper, hdone, SparesOpen, htarget] at hp
          exact absurd rfl (hp _ rfl hdir _ hheld)
      | _ => exact hremoves.elim

theorem load_watched {inodeID : Nat} (h : s.step (.load inodeID) = some s') : Watched s' := by
  dsimp only [step] at h
  split_ifs at h with hfree
  have hnone : s.locked = none := by simpa using hfree
  split at h <;> cases h
  · exact hw
  rename_i node hrow
  have hsame := loaded_sameRows (s.volume.normalizeInodeID inodeID) node s.volume
  refine ⟨UnlinkState.Steady.of_sameRows hsame hw.steady fun u hu => .inl hu, fun ino fh hheld => ?_,
    fun fh ino hfh => ?_, ⟨fun ino fh hheld => ?_, fun ino => ?_⟩, fun t ht => ?_⟩
  · exact hsame.handles ▸ hw.registered ino fh hheld
  · exact hsame.nextFh ▸ hw.fresh fh ino (hsame.handles ▸ hfh)
  · exact hsame.inodes ▸ hw.guarded.rows ino fh hheld
  · have hcounts := hw.guarded.counts ino
    unfold openCount registered at *
    rwa [hsame.openInodes, hsame.handles]
  · cases hnone.symm.trans ht

theorem allocFh_watched {k : Nat} (hp : s.Proper (.allocFh k)) (h : s.step (.allocFh k) = some s') : Watched s' := by
  dsimp only [step] at h
  split at h <;> cases h
  rename_i i hi
  have hnew : s.volume.handles.lookup (s.volume.nextFh + 1) = none := by
    cases hlookup : s.volume.handles.lookup (s.volume.nextFh + 1) with
    | none => rfl
    | some ino =>
      have := (hw.fresh _ ino hlookup).2
      omega
  have hkept {fh ino} (hfh : s.volume.handles.lookup fh = some ino) :
      (s.volume.handles.insert (s.volume.nextFh + 1) (s.volume.normalizeInodeID i)).lookup fh = some ino := by
    rw [lookup_insert, if_neg]
    · exact hfh
    · rintro rfl
      cases hnew.symm.trans hfh
  refine ⟨⟨hw.steady.sound.of_same rfl rfl rfl rfl, hw.steady.once, hw.steady.found⟩, fun ino fh hheld => ?_,
    fun fh ino hfh => ?_, ⟨fun ino fh hheld => ?_, fun ino => ?_⟩, fun t ht => ⟨(hw.locked t ht).1, fun ino fh hheld => ?_⟩⟩
  · obtain heq | hold := mem_cons.1 hheld
    · cases heq
      exact AList.lookup_insert _
    · exact hkept (hw.registered ino fh hold)
  · replace hfh : (s.volume.handles.insert (s.volume.nextFh + 1) (s.volume.normalizeInodeID i)).lookup fh = some ino :=
      hfh
    show fh ≠ 0 ∧ fh ≤ s.volume.nextFh + 1
    rw [lookup_insert] at hfh
    split_ifs at hfh with heq
    · omega
    · have := hw.fresh fh ino hfh
      omega
  · obtain heq | hold := mem_cons.1 hheld
    · cases heq
      exact isSome_iff_exists.1 (hp i hi).1
    · exact hw.guarded.rows ino fh hold
  · show (s.volume.allocFh i).1.openCount ino = (s.volume.allocFh i).1.registered ino
    rw [allocFh_openCount, registered_allocFh i hnew, hw.guarded.counts]
  · obtain heq | hold := mem_cons.1 hheld
    · cases heq
      exact isSome_iff_exists.1 ((hp i hi).2 t ht)
    · exact (hw.locked t ht).2 ino fh hold

/-- A release that is proper takes a handle of its inode, or finds the inode closed. -/
theorem release_cases_of_proper {inodeID fh : Nat} (hp : s.Proper (.release inodeID fh)) :
    s.volume.releasedInode inodeID fh = s.volume.normalizeInodeID inodeID ∧
    (s.volume.handles.lookup fh = some (s.volume.normalizeInodeID inodeID) ∧
        (s.volume.release inodeID fh).handles = s.volume.handles.erase fh ∨
      s.volume.handles.lookup fh = none ∧ s.volume.openCount (s.volume.normalizeInodeID inodeID) = 0 ∧
        (s.volume.release inodeID fh).handles = s.volume.handles) := by
  have hhandles := (release_released inodeID fh s.volume).2
  simp only [Proper] at hp
  unfold releasedInode
  unfold takeHandle at hhandles ⊢
  cases hlookup : s.volume.handles.lookup fh with rw [hlookup] at hp hhandles
  | none =>
    exact ⟨rfl, .inr ⟨rfl, hp, hhandles⟩⟩
  | some i =>
    have hne := (hw.fresh fh i hlookup).1
    simp only [if_pos hne] at hhandles ⊢
    exact ⟨hp, .inl ⟨congrArg some hp, hhandles⟩⟩

theorem release_watched {inodeID fh : Nat} (hp : s.Proper (.release inodeID fh))
    (h : s.step (.release inodeID fh) = some s') : Watched s' := by
  have hrel := (release_released inodeID fh s.volume).1
  obtain ⟨hino, hhandles⟩ := release_cases_of_proper hw hp
  rw [hino] at hrel
  dsimp only [step] at h
  split_ifs at h
  cases h
  -- a handle that is still held is another one than the one released
  have hheld {ino fh'} (hmem : (ino, fh') ∈ s.held.filter (fun h => h ≠ (s.volume.normalizeInodeID inodeID, fh))) :
      (ino, fh') ∈ s.held ∧ (s.volume.release inodeID fh).handles.lookup fh' = some ino ∧
        (ino = s.volume.normalizeInodeID inodeID → 1 < s.volume.openCount ino) := by
    obtain ⟨hmem, hne⟩ := mem_filter.1 hmem
    have hne : (ino, fh') ≠ (s.volume.normalizeInodeID inodeID, fh) := of_decide_eq_true hne
    have hreg := hw.registered ino fh' hmem
    obtain ⟨hfh, herase⟩ | ⟨hfh, hclosed, hsame⟩ := hhandles
    · have hother : fh' ≠ fh := by
        rintro rfl
        cases hreg.symm.trans hfh
        exact hne rfl
      refine ⟨hmem, ?_, ?_⟩
      · rwa [herase, lookup_erase, if_neg hother]
      · rintro rfl
        rw [hw.guarded.counts]
        exact registered_two hreg hfh hother
    · refine ⟨hmem, hsame ▸ hreg, ?_⟩
      rintro rfl
      have hpos := registered_pos hreg
      rw [hw.guarded.counts] at hclosed
      omega
  refine ⟨steady_withHandles hw.steady _, fun ino fh' hmem => (hheld hmem).2.1, fun fh' ino hfh' => ?_,
    ⟨fun ino fh' hmem => hw.guarded.rows ino fh' (hheld hmem).1, fun ino => ?_⟩, fun t ht => ?_⟩
  · show fh' ≠ 0 ∧ fh' ≤ (s.volume.release inodeID fh).nextFh
    rw [hrel.nextFh]
    replace hfh' : (s.volume.release inodeID fh).handles.lookup fh' = some ino := hfh'
    obtain ⟨-, herase⟩ | ⟨-, -, hsame⟩ := hhandles
    · exact hw.fresh fh' ino (lookup_of_erase (herase ▸ hfh'))
    · exact hw.fresh fh' ino (hsame ▸ hfh')
  · show (s.volume.release inodeID fh).openCount ino = (s.volume.release inodeID fh).registered ino
    rw [hrel.openCount, hw.guarded.counts]
    obtain ⟨hfh, herase⟩ | ⟨-, hclosed, hsame⟩ := hhandles
    · unfold registered
      rw [herase, tally_erase _ hfh]
      simp only [decide_eq_true_eq, eq_comm (a := ino)]
      omega
    · rw [hw.guarded.counts] at hclosed
      unfold registered at *
      rw [hsame]
      split_ifs with heq
      · subst heq
        omega
      · rfl
  · cases ht
    refine ⟨⟨hrel.sound hw.steady.sound, hrel.dirsOnce hw.steady.once,
      fun u hu => (hw.steady.found u hu).kept (.of_subset hrel.rows) (le_of_eq hrel.nextInode.symm)⟩,
      fun ino fh' hmem => ?_⟩
    obtain ⟨hmem, -, hmany⟩ := hheld hmem
    obtain ⟨row, hrow⟩ := hw.guarded.rows ino fh' hmem
    refine ⟨row, ?_⟩
    obtain ⟨hinodes, -⟩ | ⟨hinodes, hlast, -⟩ := hrel.inodes
    · exact hinodes ▸ hrow
    rw [hinodes, lookup_erase, if_neg]
    · exact hrow
    · rintro rfl
      have := hmany rfl
      omega

theorem finish_watched (h : s.step .finish = some s') : Watched s' := by
  obtain ⟨t, ht, rfl⟩ := map_eq_some_iff.1 h
  obtain ⟨hsteady, hrows⟩ := hw.locked t ht
  exact ⟨steady_withHandles hsteady _, hw.registered, hw.fresh, ⟨hrows, hw.guarded.counts⟩, nofun⟩

end

theorem init_watched (closeToOpen requirePermanent : Bool) : Watched (init closeToOpen requirePermanent) :=
  ⟨UnlinkState.init_steady closeToOpen requirePermanent, nofun, nofun, ⟨nofun, fun _ => rfl⟩, nofun⟩

/-- **Inodes with open handles.** Along every interleaving whose events are proper, the
inode of a handle that is held has a row, and `openInodes` counts the registered handles. -/
theorem guarded_of_proper (closeToOpen requirePermanent : Bool) (events : List HandleEvent)
    (h : Allowed step Proper (init closeToOpen requirePermanent) events) :
    Throughout step Guarded (init closeToOpen requirePermanent) events := by
  refine Allowed.throughout (I := Watched) (fun s hw => hw.guarded) ?_ (init_watched _ _) h
  intro s e s' hw hp hstep
  cases e with
  | files e => exact files_watched hw hp hstep
  | load inodeID => exact load_watched hw hstep
  | allocFh k => exact allocFh_watched hw hp hstep
  | release inodeID fh => exact release_watched hw hp hstep
  | finish => exact finish_watched hw hstep

/-- A call that nothing comes between. -/
def call (e : UnlinkEvent) : List HandleEvent := [.files e, .finish]

/-- A file is created and opened, and another `Open` has loaded its row. -/
def openRun : List HandleEvent := call (.names (.createFile 1 [97] 0) true) ++ [.load 8, .allocFh 0, .load 8]

/-- The file is unlinked and released, with a second handle in between. -/
def unlinkedRun : List HandleEvent :=
  openRun ++ call (.resolve 1 [97]) ++ call (.drop 0) ++
    [.files (.remove 0 true), .allocFh 0, .finish, .release 8 1, .finish, .release 8 2, .finish]

theorem guarded_of_proper_unlinked : Allowed step Proper (init true false) unlinkedRun ∧
    Throughout step Guarded (init true false) unlinkedRun :=
  ⟨by decide, guarded_of_proper true false unlinkedRun (by decide)⟩

/-- The file is unlinked before the handle is registered. -/
def lateRun : List HandleEvent :=
  call (.names (.createFile 1 [97] 0) true) ++ [.load 8] ++ call (.names (.unlink 1 [97]) true) ++ [.allocFh 0]

/-- The file is unlinked, and the second handle is registered while the release of the first
is about to delete the row. -/
def lastRun : List HandleEvent :=
  openRun ++ call (.names (.unlink 1 [97]) true) ++ [.release 8 1, .allocFh 0, .finish]

/-- A handle that nobody knows is released. -/
def unknownRun : List HandleEvent := openRun ++ [.allocFh 0, .release 8 99, .finish]

/-- The file is unlinked then, and the first handle is released. -/
def countedShortRun : List HandleEvent :=
  unknownRun ++ call (.names (.unlink 1 [97]) true) ++ [.release 8 1, .finish]

/-- The handle is released for another inode. -/
def otherRun : List HandleEvent :=
  openRun ++ call (.names (.createFile 1 [98] 0) true) ++ [.release 16 1, .finish] ++ call (.names (.unlink 1 [97]) true)

/-- An open directory is removed. -/
def directoryRun : List HandleEvent :=
  call (.names (.mkdir 1 [97] 0) true) ++ [.load 8, .allocFh 0] ++ call (.names (.rmdir 1 [97]) true)

/-- A handle of inode 8 is held, and the inode has no row. -/
def Dangles (fh registered : Nat) (s : HandleState) : Prop :=
  (8, fh) ∈ s.held ∧ s.volume.inodes.lookup 8 = none ∧ s.volume.registered 8 = registered

instance (fh registered : Nat) (s : HandleState) : Decidable (Dangles fh registered s) :=
  inferInstanceAs (Decidable (_ ∧ _ ∧ _))

/-- The run from a new volume ends in a state with the property. -/
def Ends (run : List HandleEvent) (P : HandleState → Prop) : Prop := ∃ s ∈ exec step (init true false) run, P s

instance (run : List HandleEvent) (P : HandleState → Prop) [DecidablePred P] : Decidable (Ends run P) :=
  inferInstanceAs (Decidable (∃ s ∈ exec step (init true false) run, P s))

/-- **Inodes that are open and gone**: a handle is held, and its inode has no row, in each of
five runs. With the handle that nobody knows, one is counted where two are registered,
and the release of the first of them deletes the row of the second. -/
theorem guarded_violated :
    Ends lateRun (Dangles 1 1) ∧ Ends lastRun (Dangles 2 1) ∧
    Ends unknownRun (fun s => s.volume.openCount 8 = 1 ∧ s.volume.registered 8 = 2) ∧
    Ends countedShortRun (Dangles 2 1) ∧ Ends otherRun (Dangles 1 0) ∧ Ends directoryRun (Dangles 1 1) := by
  refine ⟨?_, ?_, ?_, ?_, ?_, ?_⟩
  all_goals decide

end HandleState

end InClusterStorage.Controller
