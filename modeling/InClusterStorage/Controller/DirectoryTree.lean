import InClusterStorage.Controller.SoundRows

/- Where the directories stand. Every directory but the root has an entry, in the
   directory that its row names as the parent, and no entry of a directory refers to
   that directory itself. Every namespace call keeps this, also where it moves a
   directory below itself: `Outcome.placed`. -/
namespace InClusterStorage.Controller

open Volume Table Renaming

structure Placed (v : Volume) : Prop extends Sound v where
  zero : v.inodes.lookup 0 = none
  noSelf : ∀ key de, v.dirEntries.lookup key = some de → de.ino ≠ key.1
  named : ∀ ino row, v.inodes.lookup ino = some row → row.isDir = true → ino ≠ v.rootInodeID →
    ∃ key de, v.dirEntries.lookup key = some de ∧ de.ino = ino ∧ row.parentIno = key.1

variable {v v' w : Volume}

variable {de : DirEntry} {key : Nat × Name} {m : Renaming} {i : Nat} {row' : Inode}

theorem ne_of_isEmptyDir {ino : Nat} (hempty : v.isEmptyDir ino = true)
    (hkey : v.dirEntries.lookup key = some de) : key.1 ≠ ino := by
  rintro rfl
  have hfalse := isEmptyDir_eq_false (e := ⟨key, de⟩) (mem_entries.2 hkey)
  simp only [hempty, Bool.true_eq_false] at hfalse

namespace Renames

variable {m : Renaming}

theorem child_ne_oldParent (h : Renames v v' m w) (hv : Placed v) : m.childIno ≠ m.oldParent := by
  obtain ⟨de, hde, hino⟩ := h.reads.oldEntry
  exact hino ▸ hv.noSelf _ _ hde

/-- The walk of the cycle check starts at the new parent. -/
theorem child_ne_newParent (h : Renames v v' m w) (hv : Placed v) : m.childIno ≠ m.newParent := by
  cases hb : m.between with
  | true =>
    intro heq
    obtain ⟨fuel, hwalk⟩ := h.accepted.notBelow hb
    obtain ⟨de, hde, hino⟩ := h.reads.oldEntry
    have hroot := hv.rootFree ⟨_, de⟩ (mem_entries.2 hde)
    have hzero : m.newParent ≠ 0 := by
      intro h0
      rw [← heq] at h0
      have hrow := h.reads.child
      rw [h0, hv.zero] at hrow
      cases hrow
    cases fuel with
    | zero => cases hwalk
    | succ fuel =>
      rw [isBelow, if_neg, if_pos heq.symm] at hwalk
      · cases hwalk
      · rw [← heq, h.loads.rootInodeID]
        rw [← heq] at hzero
        exact not_or.2 ⟨hzero, hino ▸ hroot⟩
  | false =>
    simp only [between, Bool.and_eq_false_iff, decide_eq_false_iff_not, not_not] at hb
    obtain hfile | hp := hb
    · intro heq
      have hrow := h.reads.child
      rw [heq, h.reads.newParent] at hrow
      have hdir := h.reads.newParentDir
      rw [Option.some.inj hrow, hfile] at hdir
      cases hdir
    · rw [hp]
      exact h.child_ne_oldParent hv

theorem dirRow (h : Renames v v' m w) {i : Nat} {row' : Inode} (hi : v'.inodes.lookup i = some row')
    (hdir : row'.isDir = true) :
    (i = m.newParent ∧ m.newParent ≠ m.oldParent ∧ row' = m.newParentAfter) ∨
    (i = m.oldParent ∧ row' = m.oldParentAfter) ∨
    (i = m.childIno ∧ row' = m.childAfter) ∨
    (i ≠ m.newParent ∧ i ≠ m.oldParent ∧ i ≠ m.childIno ∧ v.inodes.lookup i = some row' ∧
      ∀ t row, m.target = some (t, row) → i ≠ t) := by
  rw [h.inodes, lookup_inodesAfter] at hi
  split_ifs at hi with hnew hold hchild
  · cases hi
    exact .inl ⟨hnew.1, hnew.2, rfl⟩
  · cases hi
    exact .inr (.inl ⟨hold, rfl⟩)
  · cases hi
    exact .inr (.inr (.inl ⟨hchild, rfl⟩))
  · have hnp : i ≠ m.newParent := fun heq => hnew ⟨heq, fun hp => hold (heq.trans hp)⟩
    refine .inr (.inr (.inr ⟨hnp, hold, hchild, ?_⟩))
    cases htarget : m.target with
    | none =>
      rw [lookup_withoutTarget_none htarget] at hi
      exact ⟨hi, nofun⟩
    | some target =>
      obtain ⟨t, row⟩ := target
      rw [lookup_withoutTarget_some htarget] at hi
      split_ifs at hi with hit hdel
      · -- the row of a target that is a directory is deleted
        cases hi
        have hrow : row.isDir = true := hdir
        simp [deletes, hrow] at hdel
      · refine ⟨hi, fun t' row' heq => ?_⟩
        cases heq
        exact hit

end Renames

theorem Renaming.Reads.target_of_lookup (h : m.Reads v)
    (hde : v.dirEntries.lookup (m.newParent, m.newName) = some de) : ∃ row, m.target = some (de.ino, row) := by
  cases htarget : m.target with
  | none =>
    rw [h.noTarget htarget] at hde
    cases hde
  | some target =>
    obtain ⟨⟨de', hde', hino⟩, -⟩ := h.target target.1 target.2 htarget
    cases hde.symm.trans hde'
    exact ⟨target.2, by rw [hino]⟩

theorem Renames.target_ne_parents (h : Renames v v' m w) {t : Nat} {row : Inode}
    (htarget : m.target = some (t, row)) (hdir : row.isDir = true) : t ≠ m.oldParent ∧ t ≠ m.newParent := by
  have hempty := h.accepted.empty t row htarget hdir
  simp only [isEmptyDir, h.loads.dirEntries] at hempty
  obtain ⟨oldDe, hold, -⟩ := h.reads.oldEntry
  obtain ⟨⟨de, hde, -⟩, -⟩ := h.reads.target t row htarget
  exact ⟨Ne.symm (ne_of_isEmptyDir hempty hold), Ne.symm (ne_of_isEmptyDir hempty hde)⟩

/-- The directory has the parent and the entries that it had. -/
structure Stays (v v' : Volume) (i : Nat) (row' : Inode) : Prop where
  row : ∃ row, v.inodes.lookup i = some row ∧ row.isDir = true ∧ row'.parentIno = row.parentIno
  entries : ∀ key de, v.dirEntries.lookup key = some de → de.ino = i → v'.dirEntries.lookup key = some de

/-- The directory has an entry in its parent, which it did not have before. -/
def Moves (v v' : Volume) (d : Done) (i : Nat) (row' : Inode) : Prop :=
  ∃ key de, v'.dirEntries.lookup key = some de ∧ de.ino = i ∧ row'.parentIno = key.1 ∧
    (v.inodes.lookup i = none ∧ (∃ row, v.inodes.lookup key.1 = some row) ∨
      ∃ m, d = .renamed m ∧ i = m.childIno ∧ key.1 = m.newParent)

/-- An entry that a call has removed is one of a file, of a directory that is gone, or of
the inode that was moved. -/
theorem Outcome.entry_lost {d : Done} (h : Outcome v v' d) (hv : Placed v) (hkey : v.dirEntries.lookup key = some de) :
    v'.dirEntries.lookup key = some de ∨ (∃ row, v.inodes.lookup de.ino = some row ∧ row.isDir = false) ∨
      v'.inodes.lookup de.ino = none ∨ ∃ m, d = .renamed m ∧ de.ino = m.childIno := by
  have hinserted {key' de'} (hfree : v.dirEntries.lookup key' = none) (heq : v'.dirEntries = v.dirEntries.insert key' de') :
      v'.dirEntries.lookup key = some de := by
    rw [heq, lookup_insert, if_neg]
    · exact hkey
    · rintro rfl
      cases hkey.symm.trans hfree
  cases h.effect with
  | none _ dirEntries | rewritten _ _ _ _ _ _ _ _ _ _ dirEntries => exact .inl (dirEntries ▸ hkey)
  | added _ _ _ _ _ _ hfree _ _ _ dirEntries | linked _ _ _ _ _ _ _ _ _ hfree _ dirEntries =>
    exact .inl (hinserted hfree dirEntries)
  | unlinked parent name de' row parentInode unlinks hfile =>
    rw [unlinks.dirEntries, lookup_erase]
    split_ifs with heq
    · cases hkey.symm.trans (heq ▸ unlinks.entry)
      exact .inr (.inl ⟨row, unlinks.child, hfile⟩)
    · exact .inl hkey
  | removed parent name de' row parentInode hentry hino hdir hempty hparent inodes dirEntries =>
    rw [dirEntries, lookup_erase]
    split_ifs with heq
    · cases hkey.symm.trans (heq ▸ hentry)
      rw [inodes, lookup_insert, if_neg (hv.noSelf _ _ hentry), lookup_erase, if_pos rfl]
      exact .inr (.inr (.inl rfl))
    · exact .inl hkey
  | renamed m w renames =>
    obtain ⟨oldDe, hold, hino⟩ := renames.reads.oldEntry
    by_cases hchild : de.ino = m.childIno
    · exact .inr (.inr (.inr ⟨m, rfl, hchild⟩))
    have hne : key ≠ (m.oldParent, m.oldName) := by
      rintro rfl
      cases hkey.symm.trans hold
      exact hchild hino
    rw [renames.dirEntries, lookup_insert, lookup_erase, if_neg hne]
    split_ifs with heq
    · -- the target of the rename
      obtain ⟨row, htarget⟩ := renames.reads.target_of_lookup (heq ▸ hkey)
      cases hdir : row.isDir with
      | false => exact .inr (.inl ⟨row, (renames.reads.target _ _ htarget).2, hdir⟩)
      | true =>
        obtain ⟨hop, hnp⟩ := renames.target_ne_parents htarget hdir
        rw [renames.inodes, lookup_inodesAfter, if_neg fun hand => hnp hand.1, if_neg hop, if_neg hchild,
          lookup_withoutTarget_some htarget]
        exact .inr (.inr (.inl (by simp [deletes, hdir])))
    · exact .inl hkey

theorem Renames.moves (h : Renames v v' m w) (hv : Placed v) (hi : v'.inodes.lookup m.childIno = some row')
    (hdir : row'.isDir = true) : Moves v v' (.renamed m) m.childIno row' := by
  rw [h.inodes, lookup_inodesAfter, if_neg fun hand => h.child_ne_newParent hv hand.1,
    if_neg (h.child_ne_oldParent hv), if_pos rfl] at hi
  cases hi
  rw [m.childAfter_isDir] at hdir
  refine ⟨(m.newParent, m.newName), m.entry, ?_, rfl, by simp [childAfter, hdir], .inr ⟨m, rfl, rfl, rfl⟩⟩
  rw [h.dirEntries]
  exact AList.lookup_insert _

/-- A directory after a call: it is new, or it is the one that was moved; or its parent
and its entries are as before. -/
theorem Outcome.dirPlace {d : Done} (h : Outcome v v' d) (hv : Placed v)
    (hi : v'.inodes.lookup i = some row') (hdir : row'.isDir = true) : Moves v v' d i row' ∨ Stays v v' i row' := by
  obtain ⟨before, hb⟩ : ∃ before, v.inodes.lookup i = before := ⟨_, rfl⟩
  cases h.rowEffect hv.toSound hb hi with
  | kept row _ kind _ parent =>
    by_cases hmoved : ∃ m, d = .renamed m ∧ i = m.childIno
    · obtain ⟨m, rfl, rfl⟩ := hmoved
      cases h.effect with
      | renamed _ w renames => exact .inl (renames.moves hv hi hdir)
    refine .inr ⟨⟨row, hb, kind ▸ hdir, parent.resolve_right hmoved⟩, fun key de hkey hino => ?_⟩
    subst hino
    obtain hkept | ⟨file, hfile, hkind⟩ | hgone | hchild := h.entry_lost hv hkey
    · exact hkept
    · cases hb.symm.trans hfile
      simp [kind, hkind] at hdir
    · cases hgone.symm.trans hi
    · exact absurd hchild hmoved
  | new _ _ next _ _ placed =>
    obtain ⟨hparent, name, de, hde, hino⟩ := placed hdir
    refine .inl ⟨_, de, hde, hino, rfl, .inl ⟨?_, hparent⟩⟩
    cases before with
    | none => exact hb
    | some row =>
      have := hv.fresh i row hb
      omega
  | linked row file | unlinked row file => exact absurd (hdir.symm.trans file) (by simp)

/-- An entry that a call has made refers to another inode than the directory it stands in. -/
theorem Outcome.noSelf {d : Done} (h : Outcome v v' d) (hv : Placed v)
    (hkey : v'.dirEntries.lookup key = some de) : de.ino ≠ key.1 := by
  obtain hold | ⟨⟨row, hrow, hdir⟩, -, hnew⟩ := h.entry hkey
  · exact hv.noSelf key de hold
  cases hnew with
  | added child next =>
    have := hv.fresh _ row hrow
    omega
  | linked child hchild hfile =>
    intro heq
    cases hrow.symm.trans (heq ▸ hchild)
    simp [hdir] at hfile
  | renamed m w renames hparent hentry =>
    rw [hparent, hentry]
    exact renames.child_ne_newParent hv

theorem Outcome.placed {d : Done} (h : Outcome v v' d) (hv : Placed v) : Placed v' where
  toSound := h.sound hv.toSound
  zero := by
    cases hrow : v'.inodes.lookup 0 with
    | none => rfl
    | some row =>
      obtain ⟨hnext, -⟩ | ⟨row₀, hrow₀, -⟩ := h.keepsKinds hv.toSound 0 row hrow
      · obtain ⟨root, hroot, -⟩ := hv.root
        have := hv.fresh _ root hroot
        omega
      · cases hv.zero.symm.trans hrow₀
  noSelf _ _ hkey := h.noSelf hv hkey
  named i row' hi hdir hroot := by
    obtain ⟨key, de, hkey, hino, hpar, -⟩ | hstays := h.dirPlace hv hi hdir
    · exact ⟨key, de, hkey, hino, hpar⟩
    obtain ⟨row, hrow, hdir, hpar⟩ := hstays.row
    rw [h.rootInodeID] at hroot
    obtain ⟨key, de, hkey, hino, hparent⟩ := hv.named i row hrow hdir hroot
    exact ⟨key, de, hstays.entries key de hkey hino, hino, hpar.trans hparent⟩

theorem init_placed (closeToOpen requirePermanent : Bool) : Placed (init closeToOpen requirePermanent) where
  toSound := init_sound closeToOpen requirePermanent
  zero := rfl
  noSelf := nofun
  named _ _ hi _ hroot := absurd (init_inodes hi).1 hroot

end InClusterStorage.Controller
