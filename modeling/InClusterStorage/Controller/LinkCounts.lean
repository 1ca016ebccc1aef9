import InClusterStorage.Lib.Runs
import InClusterStorage.Controller.DirectoryTree
import InClusterStorage.Controller.FileCounts

/- Link counts. A file counts the entries that refer to it, a directory its
   subdirectories and two more, and a directory other than the root has one entry, in
   the directory that is its parent. All calls keep this, but for two kinds of rename
   over an existing target, where the source writes a copy of a row that does not know
   of a change made in another copy: between two links of one file, the row of the
   renamed inode is written after that of the target, and the link that is gone is
   still counted; and where a directory replaces another one of the same parent, the
   parent is counted down in a copy that is never written.

   `linkCounts_iff`: along every sequence of calls the counts are right exactly if no
   rename is of one of these two kinds. -/
namespace InClusterStorage.Controller

open Volume Table Renaming Runs

/-! Counts. -/

namespace Volume

def isDirectory (ino : Nat) (v : Volume) : Bool :=
  match v.inodes.lookup ino with
  | some row => row.isDir
  | none => false

/-- The number of subdirectories. -/
def childDirs (dir : Nat) (v : Volume) : Nat :=
  Table.tally (fun key de => decide (key.1 = dir) && v.isDirectory de.ino) v.dirEntries

end Volume

structure LinkCounts (v : Volume) : Prop where
  /-- every entry refers to an inode -/
  rows : ∀ key de, v.dirEntries.lookup key = some de → ∃ row, v.inodes.lookup de.ino = some row
  files : ∀ ino row, v.inodes.lookup ino = some row → row.isDir = false → row.nlink = v.refs ino
  /-- every directory but the root has one entry, in its parent -/
  named : ∀ ino row, v.inodes.lookup ino = some row → row.isDir = true → ino ≠ v.rootInodeID →
    v.refs ino = 1 ∧ ∀ key de, v.dirEntries.lookup key = some de → de.ino = ino → row.parentIno = key.1
  dirs : ∀ ino row, v.inodes.lookup ino = some row → row.isDir = true → row.nlink = 2 + v.childDirs ino

/-! Subdirectories. -/

variable {v v' w : Volume}

/-- Entries know whether the inode they refer to is a directory. -/
def EntryKinds (v : Volume) : Prop :=
  ∀ key de, v.dirEntries.lookup key = some de → ∀ row, v.inodes.lookup de.ino = some row → de.isDir = row.isDir

/-- The number of subdirectories, as the entries have it. -/
def Volume.entryDirs (dir : Nat) (v : Volume) : Nat :=
  Table.tally (fun key de => decide (key.1 = dir) && de.isDir) v.dirEntries

theorem childDirs_eq (hkinds : EntryKinds v) (hc : FileCounts v) (dir : Nat) : v.childDirs dir = v.entryDirs dir := by
  apply tally_congr
  intro key de hkey
  obtain ⟨row, hrow⟩ := hc.rows key de hkey
  rw [hkinds key de hkey row hrow]
  simp only [isDirectory, hrow]

theorem entryDirs_insert {key : Nat × Name} {de : DirEntry} (hfree : v.dirEntries.lookup key = none)
    (h : v'.dirEntries = v.dirEntries.insert key de) (dir : Nat) :
    v'.entryDirs dir = v.entryDirs dir + if key.1 = dir ∧ de.isDir = true then 1 else 0 := by
  rw [entryDirs, h, tally_insert_of_none _ _ hfree]
  simp only [Bool.and_eq_true, decide_eq_true_eq]
  rfl

theorem entryDirs_erase {key : Nat × Name} {de : DirEntry} (hkey : v.dirEntries.lookup key = some de)
    (h : v'.dirEntries = v.dirEntries.erase key) (dir : Nat) :
    v.entryDirs dir = v'.entryDirs dir + if key.1 = dir ∧ de.isDir = true then 1 else 0 := by
  rw [entryDirs, tally_erase _ hkey, ← h]
  simp only [Bool.and_eq_true, decide_eq_true_eq]
  rfl

/-- A directory leaves its old parent, and is one more in the new one unless it takes the
place of another. -/
theorem Renames.entryDirs {m : Renaming} (h : Renames v v' m w) (hkinds : EntryKinds v) (dir : Nat) :
    v'.entryDirs dir + (if m.oldParent = dir ∧ m.childInode.isDir = true then 1 else 0) =
      v.entryDirs dir + if m.newParent = dir ∧ m.childInode.isDir = true ∧ m.replaces = false then 1 else 0 := by
  obtain ⟨oldDe, hold, hino, hcases⟩ := h.tally fun key de => decide (key.1 = dir) && de.isDir
  have holdDir : oldDe.isDir = m.childInode.isDir := hkinds _ _ hold _ (hino ▸ h.reads.child)
  have hentry : m.entry.isDir = m.childInode.isDir := rfl
  simp only [Bool.and_eq_true, decide_eq_true_eq] at hcases
  obtain ⟨hrep, htally⟩ | ⟨t, row, targetDe, hrep, htarget, hde, hdeIno, hrow, htally⟩ := hcases
  · rw [holdDir, hentry] at htally
    simpa only [Volume.entryDirs, hrep, and_true] using htally
  have htargetDir : targetDe.isDir = m.childInode.isDir :=
    (hkinds _ _ hde _ (hdeIno ▸ hrow)).trans (h.accepted.kind t row htarget)
  rw [holdDir, hentry, htargetDir] at htally
  simp only [Volume.entryDirs, hrep, Bool.true_eq_false, and_false, if_false]
  omega

theorem Outcome.entryKinds {d : Done} (h : Outcome v v' d) (hv : Sound v) (hkinds : EntryKinds v) : EntryKinds v' := by
  intro key de hkey row' hrow'
  obtain hold | ⟨⟨parentInode, hparent, -⟩, -, hnew⟩ := h.entry hkey
  · obtain ⟨hnext, -⟩ | ⟨row, hrow, hkind⟩ := h.keepsKinds hv _ row' hrow'
    · have := hv.entriesFresh ⟨key, de⟩ (mem_entries.2 hold)
      simp only at this
      omega
    · exact (hkinds key de hold row hrow).trans hkind.symm
  cases hnew with
  | added child next kind hchild =>
    have := hv.fresh _ parentInode hparent
    rw [next.1, hchild (by omega)] at hrow'
    cases hrow'
    exact kind
  | linked row hrow hfile kind => rw [kind, (h.keepsKinds hv).eq hv hrow hrow', hfile]
  | renamed m w renames _ hentry =>
    subst hentry
    exact ((h.keepsKinds hv).eq hv renames.reads.child hrow').symm

/-- A directory counts its subdirectories, and two more. -/
def DirCounts (v : Volume) : Prop :=
  ∀ ino row, v.inodes.lookup ino = some row → row.isDir = true → row.nlink = 2 + v.entryDirs ino

theorem gains_nlink {row : Inode} {n : Nat} (h : row.nlink = 2 + n) (subdirectory : Bool) :
    (row.gains subdirectory).nlink = 2 + (n + if subdirectory = true then 1 else 0) := by
  unfold Inode.gains
  split
  · show max row.nlink 2 + 1 = _
    omega
  · exact h

theorem loses_nlink {row : Inode} {n : Nat} (h : row.nlink = 2 + n) : row.loses.nlink = 2 + (n - 1) := by
  show (if row.nlink > 2 then row.nlink - 1 else row.nlink) = _
  split
  · omega
  · omega

theorem Renames.dirCounts {m : Renaming} (h : Renames v v' m w) (hv : Placed v) (hkinds : EntryKinds v)
    (hc : DirCounts v)
    (hparents : m.replaces = true → m.childInode.isDir = true → m.newParent ≠ m.oldParent) : DirCounts v' := by
  intro i row' hi hdir
  have hcount := h.entryDirs hkinds i
  obtain ⟨rfl, hne, rfl⟩ | ⟨rfl, rfl⟩ | ⟨rfl, rfl⟩ | ⟨hnp, hop, -, hrow, -⟩ := h.dirRow hi hdir
  · -- the new parent
    have hold := hc _ _ h.reads.newParent h.reads.newParentDir
    have hrep : m.replaces = m.target.isSome := by simp [replaces, hne]
    simp only [hne.symm, false_and, if_false, true_and, hrep] at hcount
    cases hchild : m.childInode.isDir with
    | true =>
      have hafter : m.newParentAfter = m.newParentInode.gains m.target.isNone := by
        simp [newParentAfter, between, hchild, hne]
      rw [hafter, gains_nlink hold]
      cases htarget : m.target with
      | none | some target => simpa [hchild, htarget] using hcount.symm
    | false =>
      have hafter : m.newParentAfter = m.newParentInode := by
        simp [newParentAfter, between, hchild]
      simp only [hchild, Bool.false_eq_true, false_and, if_false] at hcount
      rw [hafter]
      omega
  · -- the old parent
    rw [m.oldParentAfter_isDir] at hdir
    have hold := hc _ _ h.reads.oldParent hdir
    cases hchild : m.childInode.isDir with
    | true =>
      by_cases hne : m.newParent = m.oldParent
      · have hrep : m.replaces = false := by
          by_contra hrep
          exact hparents (by simpa using hrep) hchild hne
        have hafter : m.oldParentAfter = m.oldParentInode := by
          simp [oldParentAfter, between, hne]
        simp only [hne, hchild, hrep, and_self, if_true] at hcount
        rw [hafter]
        omega
      · have hafter : m.oldParentAfter = m.oldParentInode.loses := by
          simp [oldParentAfter, between, hne, hchild]
        simp only [hne, hchild, and_self, if_true, false_and, if_false] at hcount
        rw [hafter, loses_nlink hold]
        omega
    | false =>
      have hafter : m.oldParentAfter = m.oldParentInode := by
        simp [oldParentAfter, between, hchild]
      simp only [hchild, Bool.false_eq_true, and_false, false_and, if_false] at hcount
      rw [hafter]
      omega
  · -- the directory that is moved
    rw [m.childAfter_isDir] at hdir
    have hold := hc _ _ h.reads.child hdir
    have hafter : m.childAfter.nlink = m.childInode.nlink := by simp [childAfter, hdir]
    rw [if_neg fun hand => h.child_ne_oldParent hv hand.1.symm,
      if_neg fun hand => h.child_ne_newParent hv hand.1.symm] at hcount
    omega
  · have hold := hc i row' hrow hdir
    rw [if_neg fun hand => hop hand.1.symm, if_neg fun hand => hnp hand.1.symm] at hcount
    omega

theorem DirCounts.of_same (hc : DirCounts v) (hentries : ∀ dir, v'.entryDirs dir = v.entryDirs dir)
    (hrows : ∀ i row', v'.inodes.lookup i = some row' → row'.isDir = true →
      ∃ row, v.inodes.lookup i = some row ∧ row.isDir = true ∧ row'.nlink = row.nlink) : DirCounts v' := by
  intro i row' hi hdir
  obtain ⟨row, hrow, hdir, hnlink⟩ := hrows i row' hi hdir
  rw [hnlink, hentries]
  exact hc i row hrow hdir

theorem dirRow_of_insert {i parent ino : Nat} {row' parentInode rowAfter : Inode}
    (hi : ((v.inodes.insert ino rowAfter).insert parent parentInode).lookup i = some row') (hdir : row'.isDir = true)
    (hparent : v.inodes.lookup parent = some parentInode) (hfile : rowAfter.isDir = false) :
    ∃ row, v.inodes.lookup i = some row ∧ row.isDir = true ∧ row'.nlink = row.nlink := by
  rw [lookup_insert, lookup_insert] at hi
  split_ifs at hi with hp hn
  · cases hi
    exact ⟨_, hp ▸ hparent, hdir, rfl⟩
  · cases hi
    rw [hfile] at hdir
    cases hdir
  · exact ⟨row', hi, hdir, rfl⟩

theorem Sound.entryDirs_next (hv : Sound v) : v.entryDirs v.nextInode = 0 := by
  apply tally_eq_zero.2
  intro key de hkey
  obtain ⟨row, hrow, -⟩ := hv.parents ⟨key, de⟩ (mem_entries.2 hkey)
  have := hv.fresh _ row hrow
  have hne : key.1 ≠ v.nextInode := by
    simp only at this
    omega
  simp [hne]

theorem Outcome.dirCounts {d : Done} (h : Outcome v v' d) (hv : Placed v) (hkinds : EntryKinds v) (hc : DirCounts v)
    (hparents : ∀ m, d = .renamed m → m.replaces = true → m.childInode.isDir = true → m.newParent ≠ m.oldParent) :
    DirCounts v' := by
  cases h.effect with
  | none inodes dirEntries =>
    apply hc.of_same
    · intro dir
      rw [entryDirs, dirEntries]
      rfl
    · intro i row' hi hdir
      exact ⟨row', inodes ▸ hi, hdir, rfl⟩
  | added parent name parentInode child hparent hpdir hfree hchild hnext inodes dirEntries =>
    intro i row' hi hdir
    have hcount := entryDirs_insert hfree dirEntries i
    rw [inodes, lookup_insert, lookup_insert] at hi
    split_ifs at hi with hp hn
    · cases hi
      subst hp
      rw [gains_nlink (hc i parentInode hparent hpdir), hcount]
      simp
    · cases hi
      have hpn : parent ≠ i := Ne.symm hp
      rw [if_neg (fun hand => hpn hand.1), hn, hv.entryDirs_next] at hcount
      rw [hn, hcount]
      obtain ⟨hfile, -⟩ | ⟨-, htwo, -⟩ := hchild
      · rw [hfile] at hdir
        cases hdir
      · exact htwo
    · rw [if_neg (fun hand => hp hand.1.symm)] at hcount
      rw [hcount]
      exact hc i row' hi hdir
  | rewritten parent ino mode parentInode childInode hparent hpdir hino hfile inodes dirEntries =>
    apply hc.of_same
    · intro dir
      rw [entryDirs, dirEntries]
      rfl
    · intro i row' hi hdir
      rw [inodes] at hi
      exact dirRow_of_insert hi hdir hparent hfile
  | linked ino parent name row parentInode hino hfile hparent hpdir hfree inodes dirEntries =>
    apply hc.of_same
    · intro dir
      rw [entryDirs_insert hfree dirEntries]
      simp
    · intro i row' hi hdir
      rw [inodes] at hi
      exact dirRow_of_insert hi hdir hparent hfile
  | unlinked parent name de row parentInode unlinks hfile =>
    apply hc.of_same
    · intro dir
      have hcount := entryDirs_erase unlinks.entry unlinks.dirEntries dir
      have hde : de.isDir = false := (hkinds _ _ unlinks.entry _ unlinks.child).trans hfile
      simpa [hde] using hcount.symm
    · intro i row' hi hdir
      rw [unlinks.inodes] at hi
      split_ifs at hi
      · rw [lookup_insert, lookup_erase] at hi
        split_ifs at hi with hp hn
        · cases hi
          exact ⟨_, hp ▸ unlinks.parentRow, hdir, rfl⟩
        · exact ⟨row', hi, hdir, rfl⟩
      · exact dirRow_of_insert hi hdir unlinks.parentRow hfile
  | removed parent name de row parentInode hentry hino hdir' hempty hparent inodes dirEntries =>
    intro i row' hi hdir
    have hcount := entryDirs_erase hentry dirEntries i
    have hde : de.isDir = true := (hkinds _ _ hentry _ hino).trans hdir'
    have hpdir : parentInode.isDir = true := hv.parentDir hentry hparent
    simp only [hde, and_true] at hcount
    rw [inodes, lookup_insert, lookup_erase] at hi
    split_ifs at hi with hp hn
    · cases hi
      subst hp
      rw [if_pos rfl] at hcount
      rw [loses_nlink (hc i parentInode hparent hpdir)]
      omega
    · rw [if_neg (Ne.symm hp)] at hcount
      have := hc i row' hi hdir
      omega
  | renamed m w renames => exact renames.dirCounts hv hkinds hc (hparents m rfl)

/-! The tree. -/

/-- What holds of the rows where nothing is open. -/
structure Tree (v : Volume) : Prop extends Placed v where
  kinds : EntryKinds v
  closed : ∀ ino, v.hasOpenHandles ino = false
  noOrphans : NoOrphans v

theorem linkCounts_parts (hv : Tree v) : LinkCounts v ↔ FileCounts v ∧ DirsOnce v ∧ DirCounts v := by
  constructor
  · intro h
    have hc : FileCounts v := ⟨h.rows, h.files⟩
    refine ⟨hc, fun ino row hrow hdir => ?_, fun ino row hrow hdir => ?_⟩
    · by_cases hroot : ino = v.rootInodeID
      · -- the root has no entry
        have hzero : v.refs ino = 0 := by
          apply refs_eq_zero.2
          intro key de hkey
          rw [hroot]
          exact hv.rootFree ⟨key, de⟩ (mem_entries.2 hkey)
        omega
      · exact le_of_eq (h.named ino row hrow hdir hroot).1
    · rw [← childDirs_eq hv.kinds hc]
      exact h.dirs ino row hrow hdir
  · rintro ⟨hc, honce, hdirs⟩
    refine ⟨hc.rows, hc.files, fun ino row hrow hdir hroot => ?_, fun ino row hrow hdir => ?_⟩
    · obtain ⟨key, de, hkey, hde, hpar⟩ := hv.named ino row hrow hdir hroot
      have hone := honce ino row hrow hdir
      have hpos : 0 < v.refs ino := refs_pos.2 ⟨key, de, hkey, hde⟩
      refine ⟨by omega, fun key' de' hkey' hde' => ?_⟩
      rwa [key_unique hone hkey' hde' hkey hde]
    · rw [childDirs_eq hv.kinds hc]
      exact hdirs ino row hrow hdir

theorem Outcome.tree {d : Done} (h : Outcome v v' d) (hv : Tree v) : Tree v' where
  toPlaced := h.placed hv.toPlaced
  kinds := h.entryKinds hv.toSound hv.kinds
  closed ino := (h.hasOpenHandles ino).trans (hv.closed ino)
  noOrphans := (h.rowEffects hv.toSound).noOrphans h.toFramed hv.noOrphans

theorem init_tree (closeToOpen requirePermanent : Bool) : Tree (init closeToOpen requirePermanent) where
  toPlaced := init_placed closeToOpen requirePermanent
  kinds := nofun
  closed _ := rfl
  noOrphans i row hi hfile := by
    rw [(init_inodes hi).2] at hfile
    cases hfile

/-! Histories. -/

namespace Volume

/-- The volume after a call; the flag says whether its transaction can be committed. -/
def callStep (v : Volume) (e : NamespaceCall × Bool) : Option Volume := (v.serve e.2 e.1).map Prod.fst

/-- A rename that removes an entry is neither between two links of one inode, nor of a
directory over another one in the same parent. -/
def CountsKept (v : Volume) (e : NamespaceCall × Bool) : Prop :=
  ∀ m, v.does e.2 e.1 = .renamed m → m.replaces = true →
    (∀ row, m.target ≠ some (m.childIno, row)) ∧ (m.childInode.isDir = true → m.newParent ≠ m.oldParent)

end Volume

/-- A rename between two links of a file, or over a directory of the same parent, leaves
a wrong count. -/
theorem Renames.not_linkCounts {m : Renaming} (h : Renames v v' m w) (hv : Tree v) (hv' : Tree v')
    (hc : LinkCounts v) (hrep : m.replaces = true)
    (hbad : (∃ row, m.target = some (m.childIno, row)) ∨ m.childInode.isDir = true ∧ m.newParent = m.oldParent) :
    ¬ LinkCounts v' := by
  intro hc'
  obtain ⟨hfiles, honce, hdirs⟩ := (linkCounts_parts hv).1 hc
  obtain ⟨hfiles', -, hdirs'⟩ := (linkCounts_parts hv').1 hc'
  obtain ⟨row, htarget⟩ | ⟨hdir, hp⟩ := hbad
  · exact h.not_fileCounts hv.toSound hfiles honce hrep htarget hfiles'
  have hpdir := h.oldParentDir hv.toSound
  have hsame : m.oldParentAfter = m.oldParentInode := by simp [oldParentAfter, between, hp]
  have hrow' : v'.inodes.lookup m.oldParent = some m.oldParentInode := by
    rw [h.inodes, lookup_inodesAfter, if_neg (fun hand => hand.2 hp), if_pos rfl, hsame]
  have hcount := h.entryDirs hv.kinds m.oldParent
  simp only [hdir, hrep, and_self, if_true, Bool.true_eq_false, and_false, if_false] at hcount
  have hold := hdirs _ _ h.reads.oldParent hpdir
  have hnew := hdirs' _ _ hrow' hpdir
  omega

theorem Outcome.linkCounts {d : Done} (h : Outcome v v' d) (hv : Tree v) (hc : LinkCounts v)
    (hkept : ∀ m, d = .renamed m → m.replaces = true →
      (∀ row, m.target ≠ some (m.childIno, row)) ∧ (m.childInode.isDir = true → m.newParent ≠ m.oldParent)) :
    LinkCounts v' := by
  obtain ⟨hfiles, honce, hdirs⟩ := (linkCounts_parts hv).1 hc
  refine (linkCounts_parts (h.tree hv)).2 ⟨h.fileCounts hfiles hv.toSound honce ?_ ?_,
    h.dirsOnce hv.toSound honce, h.dirCounts hv.toPlaced hv.kinds hdirs ?_⟩
  · rintro ino row rfl hrow
    cases h.effect with
    | linked _ _ _ row' _ hino hfile =>
      cases hrow.symm.trans hino
      intro hzero
      have hopen := hv.noOrphans ino row hrow hfile hzero
      rw [hv.closed] at hopen
      cases hopen
  · exact fun m hd hrep => (hkept m hd hrep).1
  · exact fun m hd hrep => (hkept m hd hrep).2

/-- **Link counts.** Along every sequence of calls on a new volume, the counts are right
after each of them exactly if no rename removes another link of the inode that it
renames, or replaces a directory by one of the same parent. -/
theorem linkCounts_iff (closeToOpen requirePermanent : Bool) (calls : List (NamespaceCall × Bool)) :
    Throughout callStep LinkCounts (init closeToOpen requirePermanent) calls ↔
      Allowed callStep CountsKept (init closeToOpen requirePermanent) calls := by
  have houtcome {v v' : Volume} {e : NamespaceCall × Bool} (h : v.callStep e = some v') :
      Outcome v v' (v.does e.2 e.1) := by
    obtain ⟨⟨w, r⟩, hserve, rfl⟩ := Option.map_eq_some_iff.1 h
    exact serve_outcome hserve
  have hinit : LinkCounts (init closeToOpen requirePermanent) := by
    refine (linkCounts_parts (init_tree _ _)).2 ⟨⟨nofun, fun i row hi hfile => ?_⟩, fun i row hi _ => ?_,
      fun i row hi _ => ?_⟩
    · rw [(init_inodes hi).2] at hfile
      cases hfile
    · exact Nat.zero_le 1
    · rw [(init_inodes hi).2]
      rfl
  refine throughout_iff_allowed_of_breaks (I := Tree) ?_ ?_ calls (init_tree _ _) hinit
  · intro v e v' hv hc hkept hstep
    exact ⟨(houtcome hstep).tree hv, (houtcome hstep).linkCounts hv hc hkept⟩
  · intro v e v' hv hc hnot hstep
    have hout := houtcome hstep
    have htree := hout.tree hv
    simp only [CountsKept, not_forall, Classical.not_and_iff_not_or_not, not_not, exists_prop] at hnot
    obtain ⟨m, hdone, hrep, hbad⟩ := hnot
    rw [hdone] at hout
    cases hout.effect with
    | renamed _ w renames => exact renames.not_linkCounts hv htree hc hrep hbad

/-- Two links of a file, and one is renamed to the other. -/
def linksRun : List (NamespaceCall × Bool) :=
  [(.createFile 1 [97] 0, true), (.link 8 1 [98], true), (.rename 1 [97] 1 [98], true)]

/-- Two directories, and one is renamed to the other. -/
def directoriesRun : List (NamespaceCall × Bool) :=
  [(.mkdir 1 [97] 0, true), (.mkdir 1 [98] 0, true), (.rename 1 [97] 1 [98], true)]

/-- **Wrong counts**: a file with one entry that counts two, and a root with one
subdirectory that counts four. -/
theorem linkCounts_violated :
    (∃ v row, Reach (· = init true false) callStep always v ∧ v.inodes.lookup 8 = some row ∧
      row.isDir = false ∧ v.refs 8 = 1 ∧ row.nlink = 2 ∧ ¬ LinkCounts v) ∧
    ∃ v row, Reach (· = init true false) callStep always v ∧ v.inodes.lookup 1 = some row ∧
      row.isDir = true ∧ v.childDirs 1 = 1 ∧ row.nlink = 4 ∧ ¬ LinkCounts v := by
  constructor
  · let v := (exec callStep (init true false) linksRun).get (by decide)
    let row : Inode := { isDir := false, mode := 0o644 ||| sIfreg, nlink := 2 }
    have hrow : v.inodes.lookup 8 = some row := by decide
    have hrefs : v.refs 8 = 1 := by decide
    refine ⟨v, row, Reach.of_exec rfl (Option.some_get _).symm, hrow, rfl, hrefs, rfl, fun hc => ?_⟩
    have hnlink : row.nlink = 1 := (hc.files 8 row hrow rfl).trans hrefs
    exact absurd hnlink (by decide)
  · let v := (exec callStep (init true false) directoriesRun).get (by decide)
    let row : Inode := { isDir := true, mode := 0o755 ||| sIfdir, nlink := 4 }
    have hrow : v.inodes.lookup 1 = some row := by decide
    have hdirs : v.childDirs 1 = 1 := by decide
    refine ⟨v, row, Reach.of_exec rfl (Option.some_get _).symm, hrow, rfl, hdirs, rfl, fun hc => ?_⟩
    have hnlink : row.nlink = 2 + 1 := (hc.dirs 1 row hrow rfl).trans (congrArg (2 + ·) hdirs)
    exact absurd hnlink (by decide)

end InClusterStorage.Controller
