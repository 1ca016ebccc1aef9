import InClusterStorage.Controller.NamespaceEffects

/- The shape of the rows that every namespace call keeps, whatever becomes of the
   link counts: numbers are fresh, entries stand in directories, the root is there and
   has no name, and an inode stays a directory or stays none. -/
namespace InClusterStorage.Controller

open Volume Table Renaming

namespace Renaming

variable {m : Renaming} {v : Volume} {opened : Nat → Bool}

/-- The row of an inode after the rename. The parents are written last, so that they
prevail over the child, and the child over the target. -/
theorem lookup_inodesAfter (m : Renaming) (opened : Nat → Bool) (inodes : AList fun _ : Nat => Inode)
    (i : Nat) : (m.inodesAfter opened inodes).lookup i =
      if i = m.newParent ∧ m.newParent ≠ m.oldParent then some m.newParentAfter
      else if i = m.oldParent then some m.oldParentAfter
      else if i = m.childIno then some m.childAfter else (m.withoutTarget opened inodes).lookup i := by
  unfold inodesAfter
  by_cases hp : m.newParent = m.oldParent <;> simp [hp, lookup_insert]

theorem lookup_withoutTarget_none (h : m.target = none) (inodes : AList fun _ : Nat => Inode) (i : Nat) :
    (m.withoutTarget opened inodes).lookup i = inodes.lookup i := by
  simp only [withoutTarget, h]

theorem lookup_withoutTarget_some {ino : Nat} {row : Inode} (h : m.target = some (ino, row))
    (inodes : AList fun _ : Nat => Inode) (i : Nat) :
    (m.withoutTarget opened inodes).lookup i =
      if i = ino then (if deletes row (opened ino) then none else some row.unlinked) else inodes.lookup i := by
  simp only [withoutTarget, h]
  cases deletes row (opened ino) with
  | true => simp [lookup_erase]
  | false => simp [lookup_insert]

theorem childAfter_isDir (m : Renaming) : m.childAfter.isDir = m.childInode.isDir := by
  unfold childAfter
  split <;> rfl

theorem oldParentAfter_isDir (m : Renaming) : m.oldParentAfter.isDir = m.oldParentInode.isDir := by
  unfold oldParentAfter
  split <;> rfl

end Renaming

theorem Inode.gains_isDir (row : Inode) (b : Bool) : (row.gains b).isDir = row.isDir := by
  unfold Inode.gains
  split <;> rfl

theorem Renaming.newParentAfter_isDir (m : Renaming) : m.newParentAfter.isDir = m.newParentInode.isDir := by
  unfold newParentAfter
  split_ifs
  · exact Inode.gains_isDir _ _
  · rfl
  · rfl

/-! What becomes of a row, of an entry. -/

/-- Of the rows after a call, the new one aside, each was there before and is of the same kind. -/
def KeepsKinds (v v' : Volume) : Prop :=
  ∀ i row', v'.inodes.lookup i = some row' →
    i = v.nextInode ∧ v.nextInode < v'.nextInode ∨ ∃ row, v.inodes.lookup i = some row ∧ row'.isDir = row.isDir

variable {row : Inode} {v v' : Volume} {d : Done}

/-- A row that is gone was a file, or an empty directory with a name. -/
def KeepsRows (v v' : Volume) : Prop :=
  ∀ i row, v.inodes.lookup i = some row → v'.inodes.lookup i = none →
    row.isDir = false ∨ v.isEmptyDir i = true ∧ ∃ e ∈ v.dirEntries.entries, e.2.ino = i

/-- An entry after a call was there before, or it stands in a directory whose row is
written, and names a new inode, one that had a name before, or a file. -/
def KeepsEntries (v v' : Volume) : Prop :=
  ∀ e ∈ v'.dirEntries.entries, e ∈ v.dirEntries.entries ∨
    (∃ row, v'.inodes.lookup e.1.1 = some row ∧ row.isDir = true) ∧
      (e.2.ino = v.nextInode ∧ v.nextInode < v'.nextInode ∨ (∃ e' ∈ v.dirEntries.entries, e'.2.ino = e.2.ino) ∨
        ∃ row, v.inodes.lookup e.2.ino = some row ∧ row.isDir = false)

def Volume.IsDir (v : Volume) (ino : Nat) : Prop := ∃ row, v.inodes.lookup ino = some row ∧ row.isDir = true

inductive NewEntry (v v' : Volume) (key : Nat × Name) (de : DirEntry) : Prop where
  | added (child : Inode) (next : de.ino = v.nextInode ∧ v.nextInode < v'.nextInode) (kind : de.isDir = child.isDir)
      (row : v.nextInode ≠ key.1 → v'.inodes.lookup v.nextInode = some child) : NewEntry v v' key de
  | linked (row : Inode) (child : v.inodes.lookup de.ino = some row) (file : row.isDir = false) (kind : de.isDir = false) :
      NewEntry v v' key de
  | renamed (m : Renaming) (w : Volume) (renames : Renames v v' m w) (parent : key.1 = m.newParent)
      (entry : de = m.entry) : NewEntry v v' key de

theorem Renames.newParent_isDir {w : Volume} {m : Renaming} (h : Renames v v' m w) : v'.IsDir m.newParent := by
  unfold IsDir
  rw [h.inodes, lookup_inodesAfter]
  by_cases hp : m.newParent = m.oldParent
  · have hsame : m.newParentInode = m.oldParentInode :=
      Option.some.inj (h.reads.newParent.symm.trans (hp ▸ h.reads.oldParent))
    refine ⟨m.oldParentAfter, by simp [hp], ?_⟩
    rw [m.oldParentAfter_isDir, ← hsame]
    exact h.reads.newParentDir
  · exact ⟨m.newParentAfter, by simp [hp], m.newParentAfter_isDir.trans h.reads.newParentDir⟩

theorem Outcome.entry (h : Outcome v v' d) {key : Nat × Name} {de : DirEntry}
    (hkey : v'.dirEntries.lookup key = some de) :
    v.dirEntries.lookup key = some de ∨ v.IsDir key.1 ∧ v'.IsDir key.1 ∧ NewEntry v v' key de := by
  cases h.effect with
  | none _ dirEntries => exact .inl (dirEntries ▸ hkey)
  | added parent name parentInode child hparent hdir hfree hchild hnext inodes dirEntries =>
    rw [dirEntries, lookup_insert] at hkey
    split_ifs at hkey with heq
    · cases hkey
      subst heq
      refine .inr ⟨⟨parentInode, hparent, hdir⟩,
        ⟨_, inodes ▸ AList.lookup_insert _, (Inode.gains_isDir _ _).trans hdir⟩,
          .added child ⟨rfl, hnext⟩ rfl fun hne => ?_⟩
      rw [inodes, lookup_insert, if_neg hne, AList.lookup_insert]
    · exact .inl hkey
  | rewritten _ _ _ _ _ _ _ _ _ _ dirEntries => exact .inl (dirEntries ▸ hkey)
  | linked ino parent name row parentInode hino hfile hparent hdir hfree inodes dirEntries =>
    rw [dirEntries, lookup_insert] at hkey
    split_ifs at hkey with heq
    · cases hkey
      subst heq
      exact .inr ⟨⟨parentInode, hparent, hdir⟩, ⟨_, inodes ▸ AList.lookup_insert _, hdir⟩, .linked row hino hfile rfl⟩
    · exact .inl hkey
  | unlinked parent name de row parentInode unlinks =>
    exact .inl (lookup_of_erase (unlinks.dirEntries ▸ hkey))
  | removed _ _ _ _ _ _ _ _ _ _ _ dirEntries =>
    exact .inl (lookup_of_erase (dirEntries ▸ hkey))
  | renamed m w renames =>
    rw [renames.dirEntries, lookup_insert, lookup_erase] at hkey
    split_ifs at hkey with heq
    · cases hkey
      subst heq
      exact .inr ⟨⟨_, renames.reads.newParent, renames.reads.newParentDir⟩, renames.newParent_isDir,
        .renamed m w renames rfl rfl⟩
    · exact .inl hkey

theorem Outcome.keepsEntries (h : Outcome v v' d) : KeepsEntries v v' := by
  intro e he
  obtain hold | ⟨-, hdir, hnew⟩ := h.entry (mem_entries.1 he)
  · exact .inl (mem_entries.2 hold)
  refine .inr ⟨hdir, ?_⟩
  cases hnew with
  | added child next => exact .inl next
  | linked row hrow hfile => exact .inr (.inr ⟨row, hrow, hfile⟩)
  | renamed m w renames _ hentry =>
    obtain ⟨de, hold, hino⟩ := renames.reads.oldEntry
    exact .inr (.inl ⟨⟨_, de⟩, mem_entries.2 hold, hino.trans (hentry ▸ rfl)⟩)

/-! Sound rows. -/

/-- Numbers are fresh, entries stand in directories, and the root is a directory
without a name. -/
structure Sound (v : Volume) : Prop where
  fresh : ∀ i row, v.inodes.lookup i = some row → i < v.nextInode
  parents : ∀ e ∈ v.dirEntries.entries, ∃ row, v.inodes.lookup e.1.1 = some row ∧ row.isDir = true
  entriesFresh : ∀ e ∈ v.dirEntries.entries, e.2.ino < v.nextInode
  rootNonzero : v.rootInodeID ≠ 0
  root : ∃ row, v.inodes.lookup v.rootInodeID = some row ∧ row.isDir = true
  rootFree : ∀ e ∈ v.dirEntries.entries, e.2.ino ≠ v.rootInodeID

theorem KeepsKinds.eq (h : KeepsKinds v v') (hsound : Sound v) {i : Nat} {row' : Inode}
    (hi : v.inodes.lookup i = some row) (hi' : v'.inodes.lookup i = some row') : row'.isDir = row.isDir := by
  obtain ⟨hnew, -⟩ | ⟨row₀, hrow₀, hkind⟩ := h i row' hi'
  · have := hsound.fresh i row hi
    omega
  · cases hi.symm.trans hrow₀
    exact hkind

/-- A directory with entries keeps its row, and so does the root. -/
theorem KeepsRows.dir (h : KeepsRows v v') (hkinds : KeepsKinds v v') (hsound : Sound v)
    {i : Nat} (hi : v.inodes.lookup i = some row) (hdir : row.isDir = true)
    (hused : (∀ e ∈ v.dirEntries.entries, e.2.ino ≠ i) ∨ v.isEmptyDir i = false) :
    ∃ row', v'.inodes.lookup i = some row' ∧ row'.isDir = true := by
  cases hi' : v'.inodes.lookup i with
  | none =>
    obtain hfile | ⟨hempty, e, he, hname⟩ := h i row hi hi'
    · simp [hdir] at hfile
    · obtain hfree | hused := hused
      · exact absurd hname (hfree e he)
      · simp [hempty] at hused
  | some row' => exact ⟨row', rfl, (hkinds.eq hsound hi hi').trans hdir⟩

theorem Sound.of_keeps (h : Sound v) (hframe : v.Framed v') (hkinds : KeepsKinds v v')
    (hrows : KeepsRows v v') (hentries : KeepsEntries v v') : Sound v' where
  fresh i row hi := by
    have := hframe.nextInode
    obtain ⟨rfl, hlt⟩ | ⟨row₀, hrow₀, -⟩ := hkinds i row hi
    · exact hlt
    · have := h.fresh i row₀ hrow₀
      omega
  parents e he := by
    obtain hold | ⟨hdir, -⟩ := hentries e he
    · obtain ⟨row, hrow, hdir⟩ := h.parents e hold
      exact hrows.dir hkinds h hrow hdir (.inr (isEmptyDir_eq_false hold))
    · exact hdir
  entriesFresh e he := by
    have := hframe.nextInode
    obtain hold | ⟨-, ⟨hnew, hlt⟩ | ⟨e', he', hsame⟩ | ⟨row, hrow, -⟩⟩ := hentries e he
    · have := h.entriesFresh e hold
      omega
    · omega
    · have := h.entriesFresh e' he'
      omega
    · have := h.fresh _ row hrow
      omega
  rootNonzero := hframe.rootInodeID ▸ h.rootNonzero
  root := by
    obtain ⟨row, hrow, hdir⟩ := h.root
    rw [hframe.rootInodeID]
    exact hrows.dir hkinds h hrow hdir (.inl h.rootFree)
  rootFree e he := by
    obtain ⟨root, hroot, hrootDir⟩ := h.root
    rw [hframe.rootInodeID]
    obtain hold | ⟨-, ⟨hnew, -⟩ | ⟨e', he', hsame⟩ | ⟨row, hrow, hfile⟩⟩ := hentries e he
    · exact h.rootFree e hold
    · have := h.fresh _ root hroot
      omega
    · exact hsame ▸ h.rootFree e' he'
    · intro hr
      cases hroot.symm.trans (hr ▸ hrow)
      simp [hrootDir] at hfile

/-! References. -/

variable {w : Volume} {m : Renaming} {de : DirEntry} {ino : Nat}

/-- The number of entries that refer to the inode. -/
def Volume.refs (ino : Nat) (v : Volume) : Nat :=
  tally (fun _ de => decide (de.ino = ino)) v.dirEntries

theorem refs_pos : 0 < v.refs ino ↔ ∃ key de, v.dirEntries.lookup key = some de ∧ de.ino = ino := by
  simp only [refs, tally_pos, decide_eq_true_eq]

theorem refs_eq_zero : v.refs ino = 0 ↔ ∀ key de, v.dirEntries.lookup key = some de → de.ino ≠ ino := by
  simp only [refs, tally_eq_zero, decide_eq_false_iff_not, ne_eq]

theorem key_unique (h : v.refs ino ≤ 1) {key key' : Nat × Name} {de' : DirEntry}
    (hkey : v.dirEntries.lookup key = some de) (hde : de.ino = ino)
    (hkey' : v.dirEntries.lookup key' = some de') (hde' : de'.ino = ino) : key = key' :=
  tally_le_one h hkey (by simpa using hde) hkey' (by simpa using hde')

theorem refs_insert {key : Nat × Name} (hfree : v.dirEntries.lookup key = none)
    (h : v'.dirEntries = v.dirEntries.insert key de) (ino : Nat) :
    v'.refs ino = v.refs ino + if de.ino = ino then 1 else 0 := by
  rw [refs, h, tally_insert_of_none _ _ hfree]
  simp only [decide_eq_true_eq]
  rfl

theorem refs_erase {key : Nat × Name} (hkey : v.dirEntries.lookup key = some de)
    (h : v'.dirEntries = v.dirEntries.erase key) (ino : Nat) :
    v.refs ino = v'.refs ino + if de.ino = ino then 1 else 0 := by
  rw [refs, tally_erase _ hkey, ← h]
  simp only [decide_eq_true_eq]
  rfl

/-- The rename removes another entry than the one it moves. -/
def Renaming.replaces (m : Renaming) : Bool :=
  m.target.isSome && decide ((m.newParent, m.newName) ≠ (m.oldParent, m.oldName))

theorem Renaming.exists_target (h : m.replaces = true) : ∃ target, m.target = some target :=
  Option.isSome_iff_exists.1 (Bool.and_eq_true _ _ ▸ h).1

theorem Renames.tally (h : Renames v v' m w) (p : Nat × Name → DirEntry → Bool) :
    ∃ oldDe, v.dirEntries.lookup (m.oldParent, m.oldName) = some oldDe ∧ oldDe.ino = m.childIno ∧
      (m.replaces = false ∧
        tally p v'.dirEntries + (if p (m.oldParent, m.oldName) oldDe then 1 else 0) =
          tally p v.dirEntries + (if p (m.newParent, m.newName) m.entry then 1 else 0) ∨
      ∃ ino row targetDe, m.replaces = true ∧ m.target = some (ino, row) ∧
        v.dirEntries.lookup (m.newParent, m.newName) = some targetDe ∧ targetDe.ino = ino ∧
        v.inodes.lookup ino = some row ∧
        tally p v'.dirEntries + (if p (m.oldParent, m.oldName) oldDe then 1 else 0) +
            (if p (m.newParent, m.newName) targetDe then 1 else 0) =
          tally p v.dirEntries + (if p (m.newParent, m.newName) m.entry then 1 else 0)) := by
  obtain ⟨oldDe, hold, hino⟩ := h.reads.oldEntry
  refine ⟨oldDe, hold, hino, ?_⟩
  have hmove := tally_move p (m.newParent, m.newName) m.entry hold
  rw [← h.dirEntries] at hmove
  by_cases hkey : (m.newParent, m.newName) = (m.oldParent, m.oldName)
  · left
    rw [if_pos hkey] at hmove
    refine ⟨by simp [replaces, hkey], hmove⟩
  · rw [if_neg hkey] at hmove
    cases htarget : m.target with
    | none =>
      left
      rw [h.reads.noTarget htarget] at hmove
      exact ⟨by simp [replaces, htarget], hmove⟩
    | some target =>
      obtain ⟨ino, row⟩ := target
      obtain ⟨⟨targetDe, hde, hdeIno⟩, hrow⟩ := h.reads.target ino row htarget
      right
      rw [hde] at hmove
      exact ⟨ino, row, targetDe, by simp [replaces, htarget, hkey], rfl, hde, hdeIno, hrow, hmove⟩

@[simp] theorem Renaming.entry_ino (m : Renaming) : m.entry.ino = m.childIno := rfl

theorem Renames.refs_same (h : Renames v v' m w) (hrep : m.replaces = false) (ino : Nat) : v'.refs ino = v.refs ino := by
  obtain ⟨oldDe, -, hold, ⟨-, htally⟩ | ⟨_, _, _, hrep', -⟩⟩ := h.tally fun _ de => decide (de.ino = ino)
  · simp only [decide_eq_true_eq] at htally
    rw [hold, entry_ino] at htally
    unfold refs
    omega
  · simp [hrep] at hrep'

theorem Renames.refs_replaced (h : Renames v v' m w) (hrep : m.replaces = true) {t : Nat}
    (htarget : m.target = some (t, row)) (ino : Nat) : v.refs ino = v'.refs ino + if t = ino then 1 else 0 := by
  obtain ⟨oldDe, -, hold, ⟨hrep', -⟩ | ⟨t', row', targetDe, -, htarget', -, hde, -, htally⟩⟩ :=
    h.tally fun _ de => decide (de.ino = ino)
  · simp [hrep] at hrep'
  · cases htarget.symm.trans htarget'
    simp only [decide_eq_true_eq] at htally
    rw [hold, hde, entry_ino] at htally
    unfold refs
    omega

theorem Sound.refs_next (h : Sound v) : v.refs v.nextInode = 0 := by
  apply refs_eq_zero.2
  intro key de hde heq
  have := h.entriesFresh ⟨key, de⟩ (mem_entries.2 hde)
  simp only at this
  omega

theorem Inode.gains_parentIno (row : Inode) (b : Bool) : (row.gains b).parentIno = row.parentIno := by
  unfold Inode.gains
  split <;> rfl

theorem Renaming.oldParentAfter_parentIno (m : Renaming) : m.oldParentAfter.parentIno = m.oldParentInode.parentIno := by
  unfold oldParentAfter
  split <;> rfl

theorem Renaming.newParentAfter_parentIno (m : Renaming) : m.newParentAfter.parentIno = m.newParentInode.parentIno := by
  unfold newParentAfter
  split_ifs
  · exact Inode.gains_parentIno _ _
  · rfl
  · rfl

/-! What becomes of a row. -/

theorem Sound.parentDir (hv : Sound v) {key : Nat × Name}
    (hkey : v.dirEntries.lookup key = some de) (hrow : v.inodes.lookup key.1 = some row) : row.isDir = true := by
  obtain ⟨row', hrow', hdir⟩ := hv.parents ⟨key, de⟩ (mem_entries.2 hkey)
  cases hrow.symm.trans hrow'
  exact hdir

theorem Renames.oldParentDir (h : Renames v v' m w) (hv : Sound v) : m.oldParentInode.isDir = true := by
  obtain ⟨de, hde, -⟩ := h.reads.oldEntry
  exact hv.parentDir hde h.reads.oldParent

theorem Renames.target_eq_child (h : Renames v v' m w) (hrep : m.replaces = false) {t : Nat}
    (htarget : m.target = some (t, row)) : t = m.childIno := by
  have hkey : (m.newParent, m.newName) = (m.oldParent, m.oldName) := by
    simpa [replaces, htarget] using hrep
  obtain ⟨⟨de, hde, rfl⟩, -⟩ := h.reads.target t row htarget
  obtain ⟨oldDe, hold, hino⟩ := h.reads.oldEntry
  rw [hkey] at hde
  cases hde.symm.trans hold
  exact hino

/-- The inode is renamed from one of its links to another. -/
def Done.Relinks (d : Done) (i : Nat) : Prop :=
  ∃ m row, d = .renamed m ∧ m.replaces = true ∧ m.target = some (m.childIno, row) ∧ i = m.childIno

/-- What a call does to the row of an inode, to which `r` entries refer before it and `r'` after it. -/
inductive RowEffect (v v' : Volume) (d : Done) (i r r' : Nat) : Option Inode → Option Inode → Prop where
  | none (refs : r' = r) : RowEffect v v' d i r r' none none
  /-- files keep their links, directories may count others -/
  | kept (row row' : Inode) (kind : row'.isDir = row.isDir)
      (file : row.isDir = false → row'.nlink = row.nlink ∧ (r' = r ∨ r = r' + 1 ∧ d.Relinks i))
      (dir : row'.parentIno = row.parentIno ∨ ∃ m, d = .renamed m ∧ i = m.childIno) :
      RowEffect v v' d i r r' (some row) (some row')
  | new (before : Option Inode) (child : Inode) (next : i = v.nextInode ∧ v.nextInode < v'.nextInode)
      (file : child.isDir = false → child.nlink = 1) (refs : r' = r + 1)
      (dir : child.isDir = true → (∃ row, v.inodes.lookup child.parentIno = some row) ∧
        ∃ name de, v'.dirEntries.lookup (child.parentIno, name) = some de ∧ de.ino = i) :
      RowEffect v v' d i r r' before (some child)
  | linked (row : Inode) (file : row.isDir = false) (done : d = .linked i) (refs : r' = r + 1) :
      RowEffect v v' d i r r' (some row) (some row.linked)
  | unlinked (row : Inode) (file : row.isDir = false) (opened : row.unlinked.nlink = 0 → v.hasOpenHandles i = true)
      (refs : r = r' + 1) : RowEffect v v' d i r r' (some row) (some row.unlinked)
  | gone (row : Inode) (refs : r = r' + 1)
      (file : row.isDir = false → row.unlinked.nlink = 0 ∧ v.hasOpenHandles i = false)
      (dir : row.isDir = true → v.isEmptyDir i = true ∧ ∃ e ∈ v.dirEntries.entries, e.2.ino = i)
      (done : d = .plain ∧ row.isDir = false ∨ d = .removed i ∧ row.isDir = true ∨
        ∃ m, d = .renamed m ∧ m.target = some (i, row) ∧ i ≠ m.childIno) :
      RowEffect v v' d i r r' (some row) Option.none

variable {i r r' : Nat} {before after : Option Inode}

theorem RowEffect.same (row : Option Inode) (h : r' = r) : RowEffect v v' d i r r' row row := by
  cases row with
  | none => exact .none h
  | some row => exact .kept row row rfl (fun _ => ⟨rfl, .inl h⟩) (.inl rfl)

theorem RowEffect.dir {row' : Inode} (hdir : row.isDir = true) (hkind : row'.isDir = row.isDir)
    (hparent : row'.parentIno = row.parentIno) : RowEffect v v' d i r r' (some row) (some row') :=
  .kept row row' hkind (fun hfile => by simp [hdir] at hfile) (.inl hparent)

theorem Unlinks.rowEffect {parent : Nat} {name : Name} {parentInode : Inode}
    (h : Unlinks v v' parent name de ino row parentInode) (hv : Sound v) (hfile : row.isDir = false) (i r : Nat) :
    RowEffect v v' .plain i (r + if ino = i then 1 else 0) r (v.inodes.lookup i) (v'.inodes.lookup i) := by
  rw [h.inodes, lookup_insert]
  by_cases hp : i = parent
  · rw [if_pos hp, hp, h.parentRow]
    exact .dir (hv.parentDir h.entry h.parentRow) rfl rfl
  by_cases hi : i = ino
  · subst hi
    rw [if_pos rfl, h.child]
    split_ifs with hdel
    · rw [lookup_erase, if_pos rfl]
      exact .gone row rfl (fun _ => hdel) (fun hdir => by simp [hfile] at hdir) (.inl ⟨rfl, hfile⟩)
    · rw [AList.lookup_insert]
      exact .unlinked row hfile (fun hzero => by simpa [hzero] using hdel) rfl
  · rw [if_neg (Ne.symm hi)]
    split_ifs
    · rw [lookup_erase, if_neg hi]
      exact .same _ rfl
    · rw [lookup_insert, if_neg hi]
      exact .same _ rfl

theorem Renames.rowEffect (h : Renames v v' m w) (hv : Sound v) (i : Nat) :
    RowEffect v v' (.renamed m) i (v.refs i) (v'.refs i) (v.inodes.lookup i) (v'.inodes.lookup i) := by
  rw [h.inodes, lookup_inodesAfter]
  split_ifs with hnew hold hchild
  · rw [hnew.1, h.reads.newParent]
    exact .dir h.reads.newParentDir m.newParentAfter_isDir m.newParentAfter_parentIno
  · rw [hold, h.reads.oldParent]
    exact .dir (h.oldParentDir hv) m.oldParentAfter_isDir m.oldParentAfter_parentIno
  · subst hchild
    rw [h.reads.child]
    refine .kept _ _ m.childAfter_isDir (fun hfile => ⟨by simp [childAfter, hfile], ?_⟩) (.inr ⟨m, rfl, rfl⟩)
    cases hrep : m.replaces with
    | false => exact .inl (h.refs_same hrep _)
    | true =>
      obtain ⟨⟨t, trow⟩, htarget⟩ := m.exists_target hrep
      have hrefs := h.refs_replaced hrep htarget m.childIno
      split_ifs at hrefs with ht
      · exact .inr ⟨hrefs, m, trow, rfl, hrep, ht ▸ htarget, rfl⟩
      · exact .inl hrefs.symm
  · cases htarget : m.target with
    | none =>
      rw [lookup_withoutTarget_none htarget]
      exact .same _ (h.refs_same (by simp [replaces, htarget]) i)
    | some target =>
      obtain ⟨t, row⟩ := target
      rw [lookup_withoutTarget_some htarget]
      obtain ⟨⟨de, hde, rfl⟩, hrow⟩ := h.reads.target t row htarget
      by_cases hi : i = de.ino
      · subst hi
        have hrep : m.replaces = true := by
          by_contra hrep
          exact hchild (h.target_eq_child (by simpa using hrep) htarget)
        have hrefs := h.refs_replaced hrep htarget de.ino
        rw [if_pos rfl] at hrefs
        rw [if_pos rfl, hrow]
        split_ifs with hdel
        · refine .gone row hrefs (fun hfile => ?_) (fun hdir => ?_) (.inr (.inr ⟨m, rfl, htarget, hchild⟩))
          · simpa [deletes, hfile] using hdel
          · have hempty := h.accepted.empty _ _ htarget hdir
            simp only [isEmptyDir, h.loads.dirEntries] at hempty
            exact ⟨hempty, ⟨_, de⟩, mem_entries.2 hde, rfl⟩
        · simp only [deletes, Bool.or_eq_true, not_or, Bool.not_eq_true, Bool.and_eq_true,
            decide_eq_true_eq, not_and, Bool.not_eq_true'] at hdel
          exact .unlinked row hdel.1 (fun hzero => by simpa using hdel.2 hzero) hrefs
      · rw [if_neg hi]
        cases hrep : m.replaces with
        | false => exact .same _ (h.refs_same hrep i)
        | true =>
          have hrefs := h.refs_replaced hrep htarget i
          rw [if_neg (Ne.symm hi)] at hrefs
          exact .same _ hrefs.symm

theorem Outcome.rowEffect (h : Outcome v v' d) (hv : Sound v) (hb : v.inodes.lookup i = before)
    (ha : v'.inodes.lookup i = after) : RowEffect v v' d i (v.refs i) (v'.refs i) before after := by
  subst hb ha
  have hsame : v'.dirEntries = v.dirEntries → v'.refs i = v.refs i := by
    intro heq
    rw [refs, heq]
    rfl
  cases h.effect with
  | none inodes dirEntries => exact inodes ▸ .same _ (hsame dirEntries)
  | added parent name parentInode child hparent hdir hfree hchild hnext inodes dirEntries =>
    have hrefs := refs_insert hfree dirEntries i
    rw [inodes, lookup_insert, lookup_insert]
    split_ifs with hp hn
    · rw [hp, hparent]
      exact .dir hdir (Inode.gains_isDir _ _) (Inode.gains_parentIno _ _)
    · rw [if_pos hn.symm] at hrefs
      refine .new _ child ⟨hn, hnext⟩ (fun hfile => ?_) hrefs fun hdir' => ?_
      all_goals obtain ⟨hfile', hone⟩ | ⟨hdir', -, hpar⟩ := hchild
      · exact hone
      · simp [hfile] at hdir'
      · simp [hfile'] at hdir'
      · rw [hpar, dirEntries]
        exact ⟨⟨parentInode, hparent⟩, name, _, AList.lookup_insert _, hn.symm⟩
    · rw [if_neg (Ne.symm hn)] at hrefs
      exact .same _ hrefs
  | rewritten parent ino mode parentInode childInode hparent hdir hino hfile inodes dirEntries =>
    rw [inodes, lookup_insert, lookup_insert]
    split_ifs with hp hn
    · rw [hp, hparent]
      exact .dir hdir rfl rfl
    · rw [hn, hino]
      exact .kept childInode _ rfl (fun _ => ⟨rfl, .inl (hn ▸ hsame dirEntries)⟩) (.inl rfl)
    · exact .same _ (hsame dirEntries)
  | linked ino parent name row parentInode hino hfile hparent hdir hfree inodes dirEntries =>
    have hrefs := refs_insert hfree dirEntries i
    rw [inodes, lookup_insert, lookup_insert]
    split_ifs with hp hn
    · rw [hp, hparent]
      exact .dir hdir rfl rfl
    · subst hn
      rw [if_pos rfl] at hrefs
      rw [hino]
      exact .linked row hfile rfl hrefs
    · rw [if_neg (Ne.symm hn)] at hrefs
      exact .same _ hrefs
  | unlinked parent name de row parentInode unlinks hfile =>
    rw [refs_erase unlinks.entry unlinks.dirEntries]
    exact unlinks.rowEffect hv hfile i _
  | removed parent name de row parentInode hentry hino hdir hempty hparent inodes dirEntries =>
    have hrefs := refs_erase hentry dirEntries i
    rw [inodes, lookup_insert, lookup_erase]
    split_ifs with hp hn
    · rw [hp, hparent]
      exact .dir (hv.parentDir hentry hparent) rfl rfl
    · subst hn
      rw [if_pos rfl] at hrefs
      rw [hino]
      exact .gone row hrefs (fun hfile => by simp [hdir] at hfile)
        (fun _ => ⟨hempty, ⟨_, de⟩, mem_entries.2 hentry, rfl⟩) (.inr (.inl ⟨rfl, hdir⟩))
    · rw [if_neg (Ne.symm hn)] at hrefs
      exact .same _ hrefs.symm
  | renamed m w renames => exact renames.rowEffect hv i

/-- The changes of all rows; `d` is what the call has done. -/
def RowEffects (v v' : Volume) (d : Done) : Prop :=
  ∀ i {before after}, v.inodes.lookup i = before → v'.inodes.lookup i = after →
    ∃ r r', RowEffect v v' d i r r' before after

theorem RowEffects.keepsKinds (h : RowEffects v v' d) : KeepsKinds v v' := by
  intro i row' hi
  obtain ⟨before, hb⟩ : ∃ before, v.inodes.lookup i = before := ⟨_, rfl⟩
  obtain ⟨r, r', hchange⟩ := h i hb hi
  cases hchange with
  | kept row _ kind => exact .inr ⟨row, hb, kind⟩
  | new _ _ next => exact .inl next
  | linked row | unlinked row => exact .inr ⟨row, hb, rfl⟩

theorem RowEffects.keepsRows (h : RowEffects v v' d) : KeepsRows v v' := by
  intro i row hi hgone
  obtain ⟨r, r', hchange⟩ := h i hi hgone
  cases hchange with
  | gone _ _ _ dir => exact (Bool.eq_false_or_eq_true row.isDir).symm.imp_right dir

theorem Unlinks.rowEffects {parent : Nat} {name : Name} {parentInode : Inode}
    (h : Unlinks v v' parent name de ino row parentInode) (hv : Sound v) (hfile : row.isDir = false) :
    RowEffects v v' .plain := by
  intro i _ _ hb ha
  subst hb ha
  exact ⟨_, 0, h.rowEffect hv hfile i 0⟩

theorem Outcome.rowEffects (h : Outcome v v' d) (hv : Sound v) : RowEffects v v' d :=
  fun _ _ _ hb ha => ⟨_, _, h.rowEffect hv hb ha⟩

theorem Outcome.keepsKinds (h : Outcome v v' d) (hv : Sound v) : KeepsKinds v v' := (h.rowEffects hv).keepsKinds

theorem Outcome.sound (h : Outcome v v' d) (hsound : Sound v) : Sound v' :=
  hsound.of_keeps h.toFramed (h.keepsKinds hsound) (h.rowEffects hsound).keepsRows h.keepsEntries

section

variable (h : Sound v) (dirEntries : v'.dirEntries = v.dirEntries) (rootInodeID : v'.rootInodeID = v.rootInodeID)
include h dirEntries rootInodeID

theorem Sound.of_same (inodes : v'.inodes = v.inodes) (nextInode : v'.nextInode = v.nextInode) : Sound v' where
  fresh := by rw [inodes, nextInode]; exact h.fresh
  parents := by rw [inodes, dirEntries]; exact h.parents
  entriesFresh := by rw [dirEntries, nextInode]; exact h.entriesFresh
  rootNonzero := by rw [rootInodeID]; exact h.rootNonzero
  root := by rw [rootInodeID, inodes]; exact h.root
  rootFree := by rw [rootInodeID, dirEntries]; exact h.rootFree

/-- Rows of files can be deleted: they are neither the root nor the parents of entries. -/
theorem Sound.of_dirs (hrows : ∀ i row, v'.inodes.lookup i = some row → i < v'.nextInode)
    (hdirs : ∀ i row, v.inodes.lookup i = some row → row.isDir = true → v'.inodes.lookup i = some row)
    (hfresh : ∀ e ∈ v.dirEntries.entries, e.2.ino < v'.nextInode) : Sound v' := by
  have hdir : ∀ i, v.IsDir i → v'.IsDir i := fun i ⟨row, hrow, hdir⟩ => ⟨row, hdirs i row hrow hdir, hdir⟩
  refine ⟨hrows, fun e he => ?_, dirEntries ▸ hfresh, rootInodeID ▸ h.rootNonzero, ?_, fun e he => ?_⟩
  · exact hdir _ (h.parents e (dirEntries ▸ he))
  · rw [rootInodeID]
    exact hdir _ h.root
  · exact rootInodeID ▸ h.rootFree e (dirEntries ▸ he)

theorem Sound.erase_file {ino : Nat} (hrow : v.inodes.lookup ino = some row) (hfile : row.isDir = false)
    (inodes : v'.inodes = v.inodes.erase ino) (nextInode : v'.nextInode = v.nextInode) : Sound v' := by
  refine h.of_dirs dirEntries rootInodeID (fun i row' hi => ?_) (fun i row' hi hdir => ?_) (nextInode ▸ h.entriesFresh)
  · exact nextInode ▸ h.fresh i row' (lookup_of_erase (inodes ▸ hi))
  · rw [inodes, lookup_erase, if_neg]
    · exact hi
    · rintro rfl
      cases hrow.symm.trans hi
      simp [hdir] at hfile

end

theorem init_inodes {closeToOpen requirePermanent : Bool} {i : Nat}
    (hi : (init closeToOpen requirePermanent).inodes.lookup i = some row) :
    i = 1 ∧ row = { isDir := true, mode := 0o755 ||| sIfdir, nlink := 2 } := by
  have hmem : (⟨i, row⟩ : (_ : Nat) × Inode) ∈ (init closeToOpen requirePermanent).inodes.entries :=
    mem_entries.2 hi
  simp only [init, AList.singleton_entries, List.mem_singleton] at hmem
  cases hmem
  exact ⟨rfl, rfl⟩

theorem init_sound (closeToOpen requirePermanent : Bool) : Sound (init closeToOpen requirePermanent) := by
  refine ⟨fun i row hi => ?_, nofun, nofun, Nat.one_ne_zero, ⟨_, rfl, rfl⟩, nofun⟩
  rw [(init_inodes hi).1]
  show 1 < 8
  decide

end InClusterStorage.Controller
