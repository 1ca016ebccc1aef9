import InClusterStorage.Controller.SoundRows

/- Open handles. `AllocFh` registers a handle and counts it for its inode; `Release`
   forgets the handle, if it is known, counts one down for its inode, and with the last
   one deletes the row of a file that has no links. The effect of both on handles,
   counts and rows is stated here: `allocFh_openCount`, `release_released`. -/
namespace InClusterStorage.Controller

open Volume Table

/-- How often the inode is open. -/
def Volume.openCount (ino : Nat) (v : Volume) : Nat := (v.openInodes.lookup ino).getD 0

/-- The inode that a `Release` is for: the one of the handle, if that is known. -/
def Volume.releasedInode (inodeID fh : Nat) (v : Volume) : Nat :=
  (v.takeHandle (v.normalizeInodeID inodeID) fh).2

variable {v v' w : Volume}

theorem hasOpenHandles_iff {ino : Nat} : v.hasOpenHandles ino = true ↔ 0 < v.openCount ino := by
  unfold hasOpenHandles openCount
  cases v.openInodes.lookup ino <;> simp

theorem loaded_sameRows (ino : Nat) (row : Inode) (v : Volume) : v.SameRows (v.loaded ino row) :=
  (SameRows.refl v).loaded ino row

theorem allocFh_openCount (inodeID : Nat) (v : Volume) (ino : Nat) :
    (v.allocFh inodeID).1.openCount ino = v.openCount ino + if ino = v.normalizeInodeID inodeID then 1 else 0 := by
  show ((v.openInodes.insert _ _).lookup ino).getD 0 = _
  rw [lookup_insert]
  split_ifs with heq
  · rw [heq]
    rfl
  · rfl

theorem takeHandle_eq (inodeID fh : Nat) (v : Volume) :
    ∃ handles ino, v.takeHandle inodeID fh = ({ v with handles }, ino) := by
  unfold takeHandle
  split
  · split <;> exact ⟨_, _, rfl⟩
  · exact ⟨_, _, rfl⟩

/-- What a `Release` for the inode does. -/
structure Released (v v' : Volume) (ino : Nat) : Prop where
  dirEntries : v'.dirEntries = v.dirEntries
  nextInode : v'.nextInode = v.nextInode
  rootInodeID : v'.rootInodeID = v.rootInodeID
  nextFh : v'.nextFh = v.nextFh
  staging : v'.staging = v.staging
  openInodes : v'.openInodes =
    if v.openCount ino > 1 then v.openInodes.insert ino (v.openCount ino - 1) else v.openInodes.erase ino
  /-- the row is deleted with the last handle of a file without links -/
  inodes : v'.inodes = v.inodes ∧
      (v.openCount ino > 1 ∨ ∀ row, v.inodes.lookup ino = some row → row.isDir = true ∨ row.nlink ≠ 0) ∨
    v'.inodes = v.inodes.erase ino ∧ v.openCount ino ≤ 1 ∧
      ∃ row, v.inodes.lookup ino = some row ∧ row.isDir = false ∧ row.nlink = 0

theorem release_released (inodeID fh : Nat) (v : Volume) :
    Released v (v.release inodeID fh) (v.releasedInode inodeID fh) ∧
      (v.release inodeID fh).handles = (v.takeHandle (v.normalizeInodeID inodeID) fh).1.handles := by
  obtain ⟨handles, ino, htaken⟩ := takeHandle_eq (v.normalizeInodeID inodeID) fh v
  dsimp only [release, releasedInode]
  rw [htaken]
  have hcount : (v.openInodes.lookup ino).getD 0 = v.openCount ino := rfl
  rw [hcount]
  split_ifs with hmany
  · exact ⟨⟨rfl, rfl, rfl, rfl, rfl, by rw [if_pos hmany], .inl ⟨rfl, .inl hmany⟩⟩, rfl⟩
  have hopen : v.openInodes.erase ino =
      if v.openCount ino > 1 then v.openInodes.insert ino (v.openCount ino - 1) else v.openInodes.erase ino := by
    rw [if_neg hmany]
  cases hrow : v.inodes.lookup ino with
  | none =>
    refine ⟨⟨rfl, rfl, rfl, rfl, rfl, hopen, .inl ⟨rfl, .inr fun row hr => ?_⟩⟩, rfl⟩
    cases hrow.symm.trans hr
  | some row =>
    have hsame := loaded_sameRows ino row { v with handles, openInodes := v.openInodes.erase ino }
    dsimp only
    split_ifs with hfile
    · refine ⟨⟨hsame.dirEntries, hsame.sameNext, hsame.rootInodeID, hsame.nextFh, hsame.staging,
        hsame.openInodes.trans hopen, .inr ⟨?_, Nat.le_of_not_lt hmany, row, hrow, hfile⟩⟩, hsame.handles⟩
      simp only [commit_cons, commit_nil, apply, hsame.inodes]
    · refine ⟨⟨hsame.dirEntries, hsame.sameNext, hsame.rootInodeID, hsame.nextFh, hsame.staging,
        hsame.openInodes.trans hopen, .inl ⟨hsame.inodes, .inr fun row' hr => ?_⟩⟩, hsame.handles⟩
      cases hrow.symm.trans hr
      by_contra hnot
      exact hfile (by simpa [not_or] using hnot)

namespace Released

variable {ino : Nat}

theorem openCount (h : Released v v' ino) (i : Nat) : v'.openCount i = v.openCount i - if i = ino then 1 else 0 := by
  unfold Volume.openCount
  rw [h.openInodes]
  split_ifs with hmany hi hi
  · subst hi
    rw [lookup_insert, if_pos rfl]
    rfl
  · rw [lookup_insert, if_neg hi]
    rfl
  · subst hi
    rw [lookup_erase, if_pos rfl]
    show 0 = v.openCount i - 1
    omega
  · rw [lookup_erase, if_neg hi]
    rfl

theorem rows (h : Released v v' ino) : ∀ i row, v'.inodes.lookup i = some row → v.inodes.lookup i = some row := by
  intro i row hi
  obtain ⟨hinodes, -⟩ | ⟨hinodes, -⟩ := h.inodes
  · exact hinodes ▸ hi
  · exact lookup_of_erase (hinodes ▸ hi)

theorem sound (h : Released v v' ino) (hv : Sound v) : Sound v' := by
  obtain ⟨hinodes, -⟩ | ⟨hinodes, -, row, hrow, hfile, -⟩ := h.inodes
  · exact hv.of_same h.dirEntries h.rootInodeID hinodes h.nextInode
  · exact hv.erase_file h.dirEntries h.rootInodeID hrow hfile hinodes h.nextInode

end Released

end InClusterStorage.Controller
