import InClusterStorage.Controller.SoundRows

/- Link counts of files. Every entry refers to an inode, and a file counts the entries
   that refer to it: `Outcome.fileCounts` says which calls keep that, and
   `Unlinks.fileCounts` says it of the second section of `Unlink` alone. What the
   proofs need of directories is that they have one entry at most, which all calls
   keep. -/
namespace InClusterStorage.Controller

open Volume

/-! References. -/

variable {v v' w : Volume}

variable {ino : Nat} {de : DirEntry} {m : Renaming} {row : Inode} {d : Done}

/-! Files. -/

/-- Every entry refers to an inode, and a file counts the entries that refer to it. -/
structure FileCounts (v : Volume) : Prop where
  rows : ∀ key de, v.dirEntries.lookup key = some de → ∃ row, v.inodes.lookup de.ino = some row
  files : ∀ ino row, v.inodes.lookup ino = some row → row.isDir = false → row.nlink = v.refs ino

/-- No directory has two entries. -/
def DirsOnce (v : Volume) : Prop :=
  ∀ ino row, v.inodes.lookup ino = some row → row.isDir = true → v.refs ino ≤ 1

theorem linked_nlink (h : row.nlink ≠ 0) : row.linked.nlink = row.nlink + 1 := by
  simp [Inode.linked, h]

theorem unlinked_nlink (row : Inode) : row.unlinked.nlink = row.nlink - 1 := by
  show (if row.nlink > 1 then row.nlink - 1 else 0) = _
  split_ifs <;> omega

section

variable (hc : FileCounts v) (hv : Sound v) (honce : DirsOnce v)
include hc hv honce

/-- The rows and the references change together, and no link of a file is renamed to another one. -/
theorem FileCounts.of_changes
    (h : ∀ i {before after}, v.inodes.lookup i = before → v'.inodes.lookup i = after →
      RowEffect v v' d i (v.refs i) (v'.refs i) before after)
    (hlink : ∀ ino row, d = .linked ino → v.inodes.lookup ino = some row → row.nlink ≠ 0)
    (hlinks : ∀ i, ¬ d.Relinks i) : FileCounts v' := by
  constructor
  · intro key de hkey
    have hpos : 0 < v'.refs de.ino := refs_pos.2 ⟨key, de, hkey, rfl⟩
    cases ha : v'.inodes.lookup de.ino with
    | some row => exact ⟨row, rfl⟩
    | none =>
      obtain ⟨before, hb⟩ : ∃ before, v.inodes.lookup de.ino = before := ⟨_, rfl⟩
      cases h de.ino hb ha with
      | none hrefs =>
        obtain ⟨key', de', hkey', hino⟩ := refs_pos.1 (hrefs ▸ hpos)
        obtain ⟨row, hrow⟩ := hc.rows key' de' hkey'
        cases hb.symm.trans (hino ▸ hrow)
      | gone row hrefs hfile =>
        -- a directory has one entry; a file that is deleted has one link
        cases hdir : row.isDir with
        | true =>
          have := honce _ row hb hdir
          omega
        | false =>
          have := hc.files _ row hb hdir
          have := (hfile hdir).1
          rw [unlinked_nlink] at this
          omega
  · intro i row' hi hfile'
    obtain ⟨before, hb⟩ : ∃ before, v.inodes.lookup i = before := ⟨_, rfl⟩
    cases h i hb hi with
    | kept row _ kind file =>
      rw [kind] at hfile'
      obtain ⟨hnlink, hrefs | ⟨-, hrelinks⟩⟩ := file hfile'
      · rw [hnlink, hrefs]
        exact hc.files i row hb hfile'
      · exact absurd hrelinks (hlinks i)
    | new _ _ next file hrefs =>
      rw [hrefs, next.1, hv.refs_next]
      exact file hfile'
    | linked row file done hrefs =>
      rw [linked_nlink (hlink i row done hb), hrefs, hc.files i row hb file]
    | unlinked row file _ hrefs =>
      have := hc.files i row hb file
      rw [unlinked_nlink]
      omega

/-- The entry of a removed link is the one of the inode that loses it. -/
theorem Unlinks.fileCounts {parent : Nat} {name : Name} {parentInode : Inode}
    (h : Unlinks v v' parent name de ino row parentInode)
    (hfile : row.isDir = false) (hde : de.ino = ino) : FileCounts v' := by
  refine hc.of_changes (d := .plain) hv honce (fun i _ _ hb ha => ?_) nofun fun _ ⟨_, _, hd, _⟩ => nomatch hd
  subst hb ha hde
  rw [refs_erase h.entry h.dirEntries]
  exact h.rowEffect hv hfile i _

theorem Outcome.fileCounts (h : Outcome v v' d)
    (hlink : ∀ ino row, d = .linked ino → v.inodes.lookup ino = some row → row.nlink ≠ 0)
    (hlinks : ∀ m, d = .renamed m → m.replaces = true → ∀ row, m.target ≠ some (m.childIno, row)) : FileCounts v' :=
  hc.of_changes hv honce (fun _ _ _ hb ha => h.rowEffect hv hb ha) hlink
    fun _ ⟨m, row, hd, hrep, htarget, _⟩ => hlinks m hd hrep row htarget

end

/-! Directories have one entry. -/

/-- A new inode gains an entry, and so does a file that is linked. -/
theorem Outcome.refs_le (h : Outcome v v' d) (ino : Nat) :
    v'.refs ino ≤ v.refs ino ∨ v'.refs ino = v.refs ino + 1 ∧
      (ino = v.nextInode ∨ ∃ row, v.inodes.lookup ino = some row ∧ row.isDir = false) := by
  have hsame : v'.dirEntries = v.dirEntries → v'.refs ino ≤ v.refs ino := by
    intro heq
    rw [refs, heq]
    exact le_rfl
  cases h.effect with
  | none inodes dirEntries => exact .inl (hsame dirEntries)
  | added parent name parentInode child hparent hpdir hfree hchild hnext inodes dirEntries =>
    have hrefs := refs_insert hfree dirEntries ino
    split_ifs at hrefs with hino
    · exact .inr ⟨hrefs, .inl hino.symm⟩
    · exact .inl (le_of_eq hrefs)
  | rewritten parent ino' mode parentInode childInode hparent hpdir hino hfile inodes dirEntries =>
    exact .inl (hsame dirEntries)
  | linked ino' parent name row parentInode hino hfile hparent hpdir hfree inodes dirEntries =>
    have hrefs := refs_insert hfree dirEntries ino
    split_ifs at hrefs with heq
    · exact .inr ⟨hrefs, .inr ⟨row, heq ▸ hino, hfile⟩⟩
    · exact .inl (le_of_eq hrefs)
  | unlinked parent name de row parentInode unlinks hfile =>
    have := refs_erase unlinks.entry unlinks.dirEntries ino
    omega
  | removed parent name de row parentInode hentry hino hdir' hempty hparent inodes dirEntries =>
    have := refs_erase hentry dirEntries ino
    omega
  | renamed m w renames =>
    left
    cases hrep : m.replaces with
    | false => exact le_of_eq (renames.refs_same hrep ino)
    | true =>
      obtain ⟨target, htarget⟩ := m.exists_target hrep
      have := renames.refs_replaced hrep htarget ino
      omega

theorem Outcome.dirsOnce (h : Outcome v v' d) (hv : Sound v) (honce : DirsOnce v) : DirsOnce v' := by
  intro i row' hi hdir
  obtain hle | ⟨hone, hnew⟩ := h.refs_le i
  · obtain ⟨rfl, -⟩ | ⟨row, hrow, hkind⟩ := h.keepsKinds hv i row' hi
    · have := hv.refs_next
      omega
    · exact le_trans hle (honce i row hrow (hkind.symm.trans hdir))
  · obtain rfl | ⟨row, hrow, hfile⟩ := hnew
    · have := hv.refs_next
      omega
    · -- a file does not become a directory
      obtain ⟨hnext, -⟩ | ⟨row₀, hrow₀, hkind⟩ := h.keepsKinds hv i row' hi
      · have := hv.fresh i row hrow
        omega
      · cases hrow.symm.trans hrow₀
        simp [hkind, hfile] at hdir

/-! Calls that break the counts. -/

/-- A rename from one link of a file to another removes an entry that is still counted. -/
theorem Renames.not_fileCounts (h : Renames v v' m w) (hv : Sound v) (hc : FileCounts v)
    (honce : DirsOnce v) (hrep : m.replaces = true) (htarget : m.target = some (m.childIno, row)) :
    ¬ FileCounts v' := by
  intro hc'
  have hrefs := h.refs_replaced hrep htarget m.childIno
  rw [if_pos rfl] at hrefs
  cases hdir : m.childInode.isDir with
  | true =>
    -- a directory has no two links
    have hone := honce _ _ h.reads.child hdir
    have hpos : 0 < v'.refs m.childIno := by
      apply refs_pos.2
      refine ⟨(m.newParent, m.newName), m.entry, ?_, rfl⟩
      rw [h.dirEntries]
      exact AList.lookup_insert _
    omega
  | false =>
    have hsame : m.childAfter = m.childInode := by simp [Renaming.childAfter, hdir]
    have hne : ∀ {p : Nat} {prow : Inode}, v.inodes.lookup p = some prow → prow.isDir = true → m.childIno ≠ p := by
      rintro p prow hprow hpdir rfl
      cases hprow.symm.trans h.reads.child
      rw [hpdir] at hdir
      cases hdir
    have hnp := hne h.reads.newParent h.reads.newParentDir
    have hop := hne h.reads.oldParent (h.oldParentDir hv)
    have hrow' : v'.inodes.lookup m.childIno = some m.childInode := by
      rw [h.inodes, Renaming.lookup_inodesAfter, if_neg (fun hand => hnp hand.1), if_neg hop, if_pos rfl, hsame]
    have hold := hc.files _ _ h.reads.child hdir
    have hnew := hc'.files _ _ hrow' hdir
    omega

/-- A link of a file that has none counts two. -/
theorem Outcome.not_fileCounts_of_linked (h : Outcome v v' (.linked ino)) (hc : FileCounts v)
    (hrow : v.inodes.lookup ino = some row) (hzero : row.nlink = 0) : ¬ FileCounts v' := by
  intro hc'
  cases h.effect with
  | linked _ parent name row' parentInode hino hfile hparent hdir hfree inodes dirEntries =>
    cases hrow.symm.trans hino
    have hne : ino ≠ parent := by
      rintro rfl
      cases hino.symm.trans hparent
      rw [hdir] at hfile
      cases hfile
    have hrow' : v'.inodes.lookup ino = some row.linked := by
      rw [inodes, Table.lookup_insert, if_neg hne]
      exact AList.lookup_insert _
    have hrefs := refs_insert hfree dirEntries ino
    rw [if_pos rfl] at hrefs
    have hold := hc.files ino row hino hfile
    have hnew := hc'.files ino row.linked hrow' hfile
    have htwo : row.linked.nlink = 2 := by simp [Inode.linked, hzero]
    omega

/-! Files without links. -/

/-- A file without links is open. -/
def NoOrphans (v : Volume) : Prop :=
  ∀ ino row, v.inodes.lookup ino = some row → row.isDir = false → row.nlink = 0 → v.hasOpenHandles ino = true

/-- A file that loses its last link is kept only if it is open. -/
theorem RowEffects.noOrphans (h : RowEffects v v' d) (hframe : v.Framed v') (hno : NoOrphans v) : NoOrphans v' := by
  intro i row' hi hfile hzero
  rw [hframe.hasOpenHandles]
  obtain ⟨before, hb⟩ : ∃ before, v.inodes.lookup i = before := ⟨_, rfl⟩
  obtain ⟨r, r', hchange⟩ := h i hb hi
  cases hchange with
  | kept row _ kind file =>
    rw [kind] at hfile
    exact hno i row hb hfile ((file hfile).1.symm.trans hzero)
  | new _ _ _ file => exact absurd (file hfile) (by omega)
  | linked => exact absurd hzero (Nat.succ_ne_zero _)
  | unlinked _ _ opened => exact opened hzero

end InClusterStorage.Controller
