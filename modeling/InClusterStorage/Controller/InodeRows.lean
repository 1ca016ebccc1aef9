import InClusterStorage.Controller.DirectoryTree

/- Which inode rows there are after `Unlink` and `Rename`, where they succeed. -/
namespace InClusterStorage.Controller

open Volume Renaming

/-- The rename deletes the row of the inode and does not write it again. -/
def Volume.Replaced (v : Volume) (m : Renaming) (ino : Nat) : Prop :=
  ∃ row, m.target = some (ino, row) ∧ Renaming.deletes row (v.hasOpenHandles ino) = true ∧
    ino ∉ [m.childIno, m.oldParent, m.newParent]

/-! Which inodes there are after a call that succeeds. -/

section Calls

variable {v v' w : Volume}

variable {ino parent : Nat} {name : Name} {ok : Bool}

/-- `Unlink` deletes the inode with its last link, unless it is open. -/
theorem unlink_inodes (hv : Sound v)
    (h : v.unlink ok parent name = (v', .ok ())) :
    ∃ de row, v.dirEntries.lookup (v.normalizeInodeID parent, name) = some de ∧ v.inodes.lookup de.ino = some row ∧
      InodesAfter v v' none fun i => i = de.ino ∧ row.unlinked.nlink = 0 ∧ v.hasOpenHandles de.ino = false := by
  obtain ⟨de, row, parentInode, hun, hfile⟩ := (unlink_answered h).done () rfl
  have hne : v.normalizeInodeID parent ≠ de.ino := by
    intro heq
    have hdir : parentInode.isDir = true := hv.parentDir hun.entry hun.parentRow
    cases (heq ▸ hun.parentRow).symm.trans hun.child
    simp [hdir] at hfile
  refine ⟨de, row, hun.entry, hun.child, fun i => ?_⟩
  rw [hun.inodes, Table.lookup_insert]
  by_cases hi : i = v.normalizeInodeID parent
  · rw [if_pos hi, hi]
    exact iff_of_true ⟨parentInode, rfl⟩ (.inr ⟨⟨parentInode, hun.parentRow⟩, fun hgone => hne hgone.1⟩)
  rw [if_neg hi]
  split_ifs with hdelete
  · rw [Table.lookup_erase]
    by_cases hchild : i = de.ino
    · simp [hchild, hdelete]
    · simp [hchild]
  · rw [exists_lookup_insert_iff hun.child]
    simp [hdelete]

theorem Renames.inodesAfter {m : Renaming} (h : Renames v v' m w) : InodesAfter v v' none (v.Replaced m) := by
  intro i
  rw [h.inodes, lookup_inodesAfter]
  simp only [reduceCtorEq, false_or]
  -- a row that the rename writes is there before and after
  have hwritten {row after : Inode} (hrow : v.inodes.lookup i = some row)
      (hmem : i ∈ [m.childIno, m.oldParent, m.newParent]) :
      ((∃ r, some after = some r) ↔ (∃ r, v.inodes.lookup i = some r) ∧ ¬ v.Replaced m i) := by
    refine iff_of_true ⟨after, rfl⟩ ⟨⟨row, hrow⟩, fun hgone => ?_⟩
    obtain ⟨_, _, _, hother⟩ := hgone
    exact hother hmem
  split_ifs with hnew hold hchild
  · exact hwritten (hnew.1 ▸ h.reads.newParent) (by simp [hnew.1])
  · exact hwritten (hold ▸ h.reads.oldParent) (by simp [hold])
  · exact hwritten (hchild ▸ h.reads.child) (by simp [hchild])
  · have hother : i ∉ [m.childIno, m.oldParent, m.newParent] := by
      simp only [List.mem_cons, List.not_mem_nil, or_false, not_or]
      refine ⟨hchild, hold, fun heq => hnew ⟨heq, fun hsame => hold (heq.trans hsame)⟩⟩
    cases htarget : m.target with
    | none =>
      rw [lookup_withoutTarget_none htarget]
      simp [Volume.Replaced, htarget]
    | some target =>
      obtain ⟨ino, row⟩ := target
      have hrow := (h.reads.target ino row htarget).2
      rw [lookup_withoutTarget_some htarget]
      by_cases hi : i = ino
      · subst hi
        cases hdeletes : deletes row (v.hasOpenHandles i) with
        | true =>
          exact iff_of_false (by simp) fun hafter => hafter.2 ⟨row, htarget, hdeletes, hother⟩
        | false =>
          refine iff_of_true ⟨row.unlinked, by simp⟩ ⟨⟨row, hrow⟩, fun hgone => ?_⟩
          obtain ⟨row', htarget', hdeletes', -⟩ := hgone
          cases htarget.symm.trans htarget'
          cases hdeletes.symm.trans hdeletes'
      · rw [if_neg hi]
        have hkept : ¬ v.Replaced m i := by
          rintro ⟨row', htarget', -⟩
          cases htarget.symm.trans htarget'
          exact hi rfl
        simp [hkept]

end Calls

end InClusterStorage.Controller
