import InClusterStorage.Controller.FileCounts
import InClusterStorage.Controller.FileRefinement

/- The data of a file that loses one of its names.

   `Unlink` drops what is staged of the inode before it looks at its links and handles,
   and before the commit that may fail.

   `unlink_keeps_data_iff`: for a file with another name or an open handle, the bytes
   after the next sync are those without the `Unlink` exactly if what was staged is what
   the rows hold anyway. -/
namespace InClusterStorage.Controller

open Bytes List File

/-- The rows and handles of a volume together with the data of its files. -/
structure DataVolume where
  volume : Volume
  files : AList fun _ : Nat => File

namespace DataVolume

/-- `dropStagedChunksLocked` on the data. -/
def dropStagedChunks (ino : Nat) (d : DataVolume) : DataVolume :=
  match d.files.lookup ino with
  | none => d
  | some f => { d with files := d.files.insert ino f.dropStagedChunks }

/-- The data goes with the row. -/
def unlinkRemove (ok : Bool) (parent : Nat) (name : Name) (childIno : Nat) (d : DataVolume) :
    DataVolume × Except VolumeError Unit :=
  let result := d.volume.unlinkRemove ok parent name childIno
  ({ volume := result.1
     files := if (result.1.inodes.lookup childIno).isNone then d.files.erase childIno else d.files }, result.2)

def unlink (ok : Bool) (parent : Nat) (name : Name) (d : DataVolume) : DataVolume × Except VolumeError Unit :=
  match d.volume.unlinkResolve parent name with
  | (v, .error err) => ({ d with volume := v }, .error err)
  | (v, .ok childIno) =>
    let d := { d with volume := v }.dropStagedChunks childIno
    { d with volume := d.volume.unlinkDrop childIno }.unlinkRemove ok parent name childIno

end DataVolume

/-! The bytes of a file. -/

/-- The bytes as the next sync will leave them. -/
def File.content (cs : Nat) (f : File) : List UInt8 := (List.range f.size).map (f.currentByte cs)

/-- What is staged is what the rows hold anyway. -/
def File.Settled (cs : Nat) (f : File) : Prop :=
  f.size = f.row.size ∧ ∀ p, p < f.size → f.currentByte cs p = f.committedByte cs p

/-- A sync and a read leave the same bytes for both. -/
def SameData (limits : Limits) (f f' : File) : Prop :=
  ∀ offset length, (f'.fsync limits).readFile limits offset length = (f.fsync limits).readFile limits offset length

section Bytes

variable {limits : Limits} {cs : Nat} {f f' : File}

theorem WellFormed.represents (h : WellFormed limits cs f) : Represents limits cs f (f.content cs) := by
  refine ⟨h, by simp [content], ?_⟩
  intro p
  by_cases hp : p < f.size
  · simp [content, byteAt, hp]
  · have hsplit := div_mul_add_mod h.rows.pos p
    have hlen := h.current_length_le (p / cs)
    rw [byteAt_of_length_le (by simp [content]; omega), currentByte, byteAt_of_length_le (by omega)]

theorem sameData_iff (h : WellFormed limits cs f) (h' : WellFormed limits cs f') :
    SameData limits f f' ↔ f'.content cs = f.content cs := by
  have hsynced := h.represents.synced
  have hsynced' := h'.represents.synced
  constructor
  · intro hsame
    have hread := hsame 0 0
    rw [hsynced.2, hsynced'.2] at hread
    simpa [slice] using hread
  · intro heq offset length
    rw [hsynced.2, hsynced'.2, heq]

theorem WellFormed.dropStagedChunks (h : WellFormed limits cs f) : WellFormed limits cs f.dropStagedChunks := by
  apply WellFormed.of_rows
  · exact h.rows.restaged ∅ none f.packID
  · exact fun i => rfl
  · rfl

theorem content_dropStagedChunks : f.dropStagedChunks.content cs = f.content cs ↔ f.Settled cs := by
  have hdropped : f.dropStagedChunks.content cs = (range f.row.size).map (f.committedByte cs) := rfl
  rw [hdropped]
  constructor
  · intro heq
    have hsize : f.row.size = f.size := by simpa [content] using congrArg length heq
    refine ⟨hsize.symm, ?_⟩
    intro p hp
    rw [hsize] at heq
    exact (map_inj_left.mp heq p (mem_range.mpr hp)).symm
  · rintro ⟨hsize, hbytes⟩
    rw [content, hsize]
    apply map_congr_left
    intro p hp
    exact (hbytes p (hsize ▸ mem_range.mp hp)).symm

end Bytes

/-! The inode stays. -/

section Names

variable {v : Volume} {parent ino : Nat} {name : Name} {de : DirEntry} {row : Inode}

theorem unlinkResolve_found (hlength : name.length ≤ maxNameLength)
    (hentry : v.dirEntries.lookup (v.normalizeInodeID parent, name) = some de)
    (hrow : v.inodes.lookup de.ino = some row) (hfile : row.isDir = false) :
    v.unlinkResolve parent name = (v.loaded de.ino row, .ok de.ino) := by
  simp only [Volume.unlinkResolve, if_neg (not_lt.mpr hlength), hentry, hrow, hfile, Bool.false_eq_true, if_false]

theorem unlinkRemove_keeps (ok : Bool) (hrow : v.inodes.lookup ino = some row)
    (hshared : 2 ≤ row.nlink ∨ v.hasOpenHandles ino = true) :
    ∃ row', (v.unlinkRemove ok parent name ino).1.inodes.lookup ino = some row' := by
  rcases v.unlinkRemove_cases ok parent name ino with ⟨hsame, _⟩ | ⟨_, _, _, de, row', parentInode, hunlinks⟩
  · exact ⟨row, by rw [hsame.inodes, hrow]⟩
  obtain rfl : row = row' := Option.some.inj (hrow.symm.trans hunlinks.child)
  have hkept : ¬ (row.unlinked.nlink = 0 ∧ v.hasOpenHandles ino = false) := by
    rintro ⟨hnlink, hopen⟩
    rcases hshared with htwo | hhandle
    · simp only [Inode.unlinked] at hnlink
      split at hnlink <;> omega
    · exact Bool.false_ne_true (hopen.symm.trans hhandle)
  rw [hunlinks.inodes, if_neg hkept, Table.lookup_insert]
  split
  · exact ⟨_, rfl⟩
  · exact ⟨_, AList.lookup_insert _⟩

end Names

/-- **Removing a name keeps the data exactly if nothing staged is new.** The inode has
another name or is open, and the `Unlink` may succeed or fail in its commit. -/
theorem unlink_keeps_data_iff {limits : Limits} {cs : Nat} {d : DataVolume} {parent : Nat} {name : Name} {de : DirEntry}
    {row : Inode} {f : File} (hlength : name.length ≤ maxNameLength)
    (hentry : d.volume.dirEntries.lookup (d.volume.normalizeInodeID parent, name) = some de)
    (hrow : d.volume.inodes.lookup de.ino = some row) (hfile : row.isDir = false)
    (hlinks : row.nlink = d.volume.refs de.ino)
    (hshared : 2 ≤ d.volume.refs de.ino ∨ d.volume.hasOpenHandles de.ino = true)
    (hdata : d.files.lookup de.ino = some f) (hwf : WellFormed limits cs f) (ok : Bool) :
    (∃ f', (d.unlink ok parent name).1.files.lookup de.ino = some f' ∧ SameData limits f f') ↔ f.Settled cs := by
  have hresolve := unlinkResolve_found hlength hentry hrow hfile
  have hloaded : d.volume.loaded de.ino row = d.volume := by
    simp [Volume.loaded, hfile]
  have hfiles : (d.unlink ok parent name).1.files = d.files.insert de.ino f.dropStagedChunks := by
    simp only [DataVolume.unlink, hresolve, hloaded, DataVolume.dropStagedChunks, hdata, DataVolume.unlinkRemove]
    have hkept : ∃ row', ((d.volume.unlinkDrop de.ino).unlinkRemove ok parent name de.ino).1.inodes.lookup de.ino =
        some row' := unlinkRemove_keeps ok hrow (hlinks ▸ hshared)
    obtain ⟨row', hrow'⟩ := hkept
    rw [hrow']
    rfl
  rw [hfiles]
  constructor
  · rintro ⟨f', hf', hsame⟩
    rw [AList.lookup_insert] at hf'
    cases hf'
    exact content_dropStagedChunks.mp ((sameData_iff hwf hwf.dropStagedChunks).mp hsame)
  · intro hsettled
    exact ⟨_, AList.lookup_insert _, (sameData_iff hwf hwf.dropStagedChunks).mpr (content_dropStagedChunks.mpr hsettled)⟩

/-- A file with the names `a` and `b`. -/
def twoNames (f : File) : DataVolume :=
  { volume := (((Volume.init false false).createFile true 1 [97] 0o644).1.link true 8 1 [98]).1
    files := AList.singleton 8 f }

/-- The four bytes are synced before one of the names goes. -/
theorem unlink_keeps_data_synced :
    let f := ((Limits.mk 4 2).emptyFile.writeFile ⟨4, 2⟩ ⟨0, [1, 1, 1, 1]⟩).fsync ⟨4, 2⟩
    (twoNames f).volume.refs 8 = 2 ∧
      ∃ f', ((twoNames f).unlink true 1 [97]).1.files.lookup 8 = some f' ∧ SameData ⟨4, 2⟩ f f' := by
  intro f
  have hwf : WellFormed ⟨4, 2⟩ 4 f := ((represents_emptyFile ⟨4, 2⟩ (by decide)).run_all rfl
    [.writeFile ⟨0, [1, 1, 1, 1]⟩ (by decide), .fsync]).wellFormed
  have hentry : (twoNames f).volume.dirEntries.lookup ((twoNames f).volume.normalizeInodeID 1, [97]) =
      some ⟨8, false, 0o100644⟩ := by decide
  have hrow : (twoNames f).volume.inodes.lookup 8 = some ⟨false, 0o100644, 2, 0⟩ := by decide
  have hsettled : f.Settled 4 := ⟨by decide, by decide⟩
  exact ⟨by decide, (unlink_keeps_data_iff (by decide) hentry hrow rfl (by decide) (by decide) rfl hwf true).mpr hsettled⟩

/-- They are not synced, and one of the names goes, or fails to go: they are lost. -/
theorem unlink_loses_staged :
    let f := (Limits.mk 4 2).emptyFile.writeFile ⟨4, 2⟩ ⟨0, [1, 1, 1, 1]⟩
    ∀ ok, ((twoNames f).unlink ok 1 [97]).1.volume.dirEntries.lookup (1, [98]) = some ⟨8, false, 0o100644⟩ ∧
      (f.fsync ⟨4, 2⟩).readFile ⟨4, 2⟩ 0 4 = [1, 1, 1, 1] ∧
      (((twoNames f).unlink ok 1 [97]).1.files.lookup 8).map
        (fun f' => (f'.fsync ⟨4, 2⟩).readFile ⟨4, 2⟩ 0 4) = some [] := by
  decide

end InClusterStorage.Controller
