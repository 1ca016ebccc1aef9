import InClusterStorage.Controller.DirectoryCycles
import InClusterStorage.Controller.FileData
import InClusterStorage.Controller.Handles
import InClusterStorage.Controller.InodeRows

/- The rows that belong to an inode: its `FileChunk` rows and its `XAttr` rows, which the
   `XattrCount` of the inode row counts.

   `Unlink`, `Rmdir` and `Release` delete an inode with `deleteInodeRowsLocked`, which deletes
   both kinds of rows. `Rename` over a target and the cleaning of orphans after a restart have
   deletions of their own, which leave the `XAttr` rows.

   1. `rows_owned_iff`: along every history of calls and restarts, all rows belong to inodes
      that are there, and counts are right, exactly if no inode is deleted by `Rename` or by a
      restart while it has extended attributes.
   2. `rows_orphaned`: both of them leave attributes behind.

   What the calls on data write to the chunk rows is in `FileData`; here it is only that they
   change rows of one file that is there. Counts stay below `2^32`. -/
namespace InClusterStorage.Controller

open Volume Table Option Runs

/-! The machine. -/

/-- A volume with the rows that depend on inodes. -/
structure RowVolume where
  volume : Volume
  /-- the `XattrCount` of each inode row -/
  xattrCounts : AList (fun _ : Nat => Nat) := ∅
  chunkRows : AList (fun _ : Nat × Nat => FileChunk) := ∅
  xattrs : AList (fun _ : Nat × Name => List UInt8) := ∅

/-- What a transaction does to the chunk rows of a file. -/
structure ChunkChanges where
  deleted : List Nat := []
  inserted : List (Nat × FileChunk) := []
  deriving DecidableEq, Repr

inductive XAttrFlags where
  | unspecified
  | create
  | replace
  deriving DecidableEq, Repr

inductive XAttrError where
  | enametoolong
  | enotsup
  | e2big
  | enoent
  | eexist
  | enodata
  /-- the transaction fails -/
  | commit
  deriving DecidableEq, Repr

def maxXAttrNameLength : Nat := 255

def maxXAttrValueLength : Nat := 64 * 1024

/-- The bytes of `system.`. -/
def systemPrefix : Name := [115, 121, 115, 116, 101, 109, 46]

namespace RowVolume

def xattrCount (ino : Nat) (x : RowVolume) : Nat := (x.xattrCounts.lookup ino).getD 0

/-- How many `XAttr` rows the inode has. -/
def xattrRows (ino : Nat) (x : RowVolume) : Nat := Table.tally (fun key _ => decide (key.1 = ino)) x.xattrs

def deleteChunkRows (ino : Nat) (x : RowVolume) : RowVolume :=
  { x with chunkRows := select (fun key => decide (key.1 ≠ ino)) x.chunkRows }

/-- The rows that `deleteInodeRowsLocked` deletes beside that of the inode. -/
def deleteInodeRows (ino : Nat) (x : RowVolume) : RowVolume :=
  { x.deleteChunkRows ino with xattrs := select (fun key => decide (key.1 ≠ ino)) x.xattrs }

/-- A new inode row counts no attributes. -/
def created (ino : Nat) (x : RowVolume) : RowVolume := { x with xattrCounts := x.xattrCounts.insert ino 0 }

def applyChunks (ino : Nat) (changes : ChunkChanges) (x : RowVolume) : RowVolume :=
  let deleted := changes.deleted.foldl (fun rows i => rows.erase (ino, i)) x.chunkRows
  { x with chunkRows := changes.inserted.foldl (fun rows c => rows.insert (ino, c.1) c.2) deleted }

/-- What a namespace call that succeeds does to the other rows; `x` is the volume before it
and `after` the same rows with the inodes and entries after it. `changes` are the chunk rows
of the content that `CreateFile` is given. -/
def dependents (changes : ChunkChanges) (x after : RowVolume) : NamespaceCall → RowVolume
  | .mkdir _ _ _ | .symlink _ _ => after.created x.volume.nextInode
  | .createFile parent name _ =>
    match x.volume.dirEntries.lookup (x.volume.normalizeInodeID parent, name) with
    | some de => after.applyChunks de.ino changes
    | none => (after.created x.volume.nextInode).applyChunks x.volume.nextInode changes
  | .link _ _ _ => after
  | .unlink parent name =>
    match x.volume.dirEntries.lookup (x.volume.normalizeInodeID parent, name) with
    | none => after
    | some de =>
      match x.volume.inodes.lookup de.ino with
      | none => after
      | some row =>
        if row.unlinked.nlink = 0 ∧ x.volume.hasOpenHandles de.ino = false then after.deleteInodeRows de.ino else after
  | .rmdir parent name =>
    match x.volume.dirEntries.lookup (x.volume.normalizeInodeID parent, name) with
    | none => after
    | some de => after.deleteInodeRows de.ino
  | .rename oldParent oldName newParent newName =>
    match x.volume.acceptedRename oldParent oldName newParent newName with
    | none => after
    | some m =>
      match m.target with
      | none => after
      | some (ino, row) =>
        if row.isDir = false ∧ row.unlinked.nlink = 0 ∧ x.volume.hasOpenHandles ino = false then after.deleteChunkRows ino
        else after

def serve (ok : Bool) (changes : ChunkChanges) (x : RowVolume) (call : NamespaceCall) : Option RowVolume :=
  match x.volume.serve ok call with
  | none => none
  | some (v, .error _) => some { x with volume := v }
  | some (v, .ok ()) => some (dependents changes x { x with volume := v } call)

/-- `Release` deletes the rows with that of the inode. -/
def release (inodeID fh : Nat) (x : RowVolume) : RowVolume :=
  let after := { x with volume := x.volume.release inodeID fh }
  let ino := x.volume.releasedInode inodeID fh
  match x.volume.inodes.lookup ino with
  | none => after
  | some row =>
    if x.volume.openCount ino ≤ 1 ∧ row.isDir = false ∧ row.nlink = 0 then after.deleteInodeRows ino else after

/-- The names that extended attributes cannot have. -/
def xattrNameError (name : Name) : Option XAttrError :=
  if name.length > maxXAttrNameLength then some .enametoolong
  else if systemPrefix <+: name then some .enotsup
  else none

def setXAttr (ok : Bool) (inodeID : Nat) (name : Name) (value : List UInt8) (flags : XAttrFlags) (x : RowVolume) :
    RowVolume × Except XAttrError Unit :=
  match xattrNameError name with
  | some err => (x, .error err)
  | none =>
    if value.length > maxXAttrValueLength then (x, .error .e2big)
    else
      let ino := x.volume.normalizeInodeID inodeID
      match x.volume.inodes.lookup ino with
      | none => (x, .error .enoent)
      | some row =>
        let x := { x with volume := x.volume.loaded ino row }
        let found := (x.xattrs.lookup (ino, name)).isSome
        if flags = .create ∧ found then (x, .error .eexist)
        else if flags = .replace ∧ !found then (x, .error .enodata)
        else if ok = false then (x, .error .commit)
        else
          ({ x with
              xattrs := x.xattrs.insert (ino, name) value
              xattrCounts := if found then x.xattrCounts else x.xattrCounts.insert ino (x.xattrCount ino + 1) }, .ok ())

def removeXAttr (ok : Bool) (inodeID : Nat) (name : Name) (x : RowVolume) : RowVolume × Except XAttrError Unit :=
  match xattrNameError name with
  | some err => (x, .error err)
  | none =>
    let ino := x.volume.normalizeInodeID inodeID
    match x.volume.inodes.lookup ino with
    | none => (x, .error .enoent)
    | some row =>
      let x := { x with volume := x.volume.loaded ino row }
      if x.xattrs.lookup (ino, name) = none then (x, .error .enodata)
      else if ok = false then (x, .error .commit)
      else
        ({ x with
            xattrs := x.xattrs.erase (ino, name)
            xattrCounts := x.xattrCounts.insert ino (x.xattrCount ino - 1) }, .ok ())

/-- `LoadFromBackend`: where the orphans can be deleted, their chunk rows are. -/
def restart (next : Nat) (ok : Bool) (x : RowVolume) : RowVolume :=
  let orphans := if ok then x.volume.orphans else []
  { x with
    volume := x.volume.restart next ok
    chunkRows := select (fun key => decide (key.1 ∉ orphans)) x.chunkRows }

end RowVolume

inductive RowEvent where
  | call (call : NamespaceCall) (changes : ChunkChanges) (ok : Bool)
  /-- a call on the data of a file, or the part of a sync that is about it -/
  | data (ino : Nat) (changes : ChunkChanges)
  | setXAttr (inodeID : Nat) (name : Name) (value : List UInt8) (flags : XAttrFlags) (ok : Bool)
  | removeXAttr (inodeID : Nat) (name : Name) (ok : Bool)
  | openFile (inodeID : Nat)
  | release (inodeID fh : Nat)
  | restart (next : Nat) (ok : Bool)
  deriving DecidableEq, Repr

namespace RowVolume

def step (x : RowVolume) : RowEvent → Option RowVolume
  | .call call changes ok => x.serve ok changes call
  | .data ino changes =>
    match x.volume.inodes.lookup ino with
    | none => none
    | some row => if row.isDir then none else some (x.applyChunks ino changes)
  | .setXAttr inodeID name value flags ok => some (x.setXAttr ok inodeID name value flags).1
  | .removeXAttr inodeID name ok => some (x.removeXAttr ok inodeID name).1
  | .openFile inodeID =>
    match x.volume.inodes.lookup (x.volume.normalizeInodeID inodeID) with
    | none => none
    | some _ => some { x with volume := (x.volume.allocFh inodeID).1 }
  | .release inodeID fh => some (x.release inodeID fh)
  | .restart next ok => if x.volume.numbersBelow next then some (x.restart next ok) else none

def init (closeToOpen requirePermanent : Bool) : RowVolume :=
  { volume := Volume.init closeToOpen requirePermanent, xattrCounts := AList.singleton 1 0 }

/-- Every row belongs to an inode that is there, and the counts are right. -/
structure Owned (x : RowVolume) : Prop where
  chunks : ∀ key chunk, x.chunkRows.lookup key = some chunk → ∃ row, x.volume.inodes.lookup key.1 = some row
  xattrs : ∀ key value, x.xattrs.lookup key = some value → ∃ row, x.volume.inodes.lookup key.1 = some row
  counts : ∀ ino row, x.volume.inodes.lookup ino = some row → x.xattrCount ino = x.xattrRows ino

/-- Neither `Rename` nor a restart deletes an inode that has extended attributes. -/
def Tidy (x : RowVolume) : RowEvent → Prop
  | .call call _ ok => ∀ m, x.volume.does ok call = .renamed m → ∀ ino, x.volume.Replaced m ino → x.xattrRows ino = 0
  | .restart _ ok => ok = true → ∀ ino ∈ x.volume.orphans, x.xattrRows ino = 0
  | _ => True

end RowVolume

namespace RowVolume

variable {x x' : RowVolume}

/-! Rows of one inode. -/

theorem lookup_others {α β : Type} [DecidableEq α] (ino : Nat) (rows : AList fun _ : Nat × α => β) (key : Nat × α) :
    (select (fun key => decide (key.1 ≠ ino)) rows).lookup key = if key.1 = ino then none else rows.lookup key := by
  rw [lookup_select]
  by_cases h : key.1 = ino <;> simp [h]

theorem lookup_applyChunks {ino : Nat} {changes : ChunkChanges} {key : Nat × Nat} (hne : key.1 ≠ ino) :
    (x.applyChunks ino changes).chunkRows.lookup key = x.chunkRows.lookup key := by
  have hkey : ∀ i, key ≠ (ino, i) := fun i heq => hne (congrArg Prod.fst heq)
  let Kept (rows : AList fun _ : Nat × Nat => FileChunk) : Prop := rows.lookup key = x.chunkRows.lookup key
  have hdeleted : Kept (changes.deleted.foldl (fun rows i => rows.erase (ino, i)) x.chunkRows) := by
    refine List.foldlRecOn (motive := Kept) _ _ rfl fun rows ih i _ => ?_
    exact (lookup_erase ..).trans ((if_neg (hkey i)).trans ih)
  refine List.foldlRecOn (motive := Kept) _ _ hdeleted fun rows ih c _ => ?_
  exact (lookup_insert ..).trans ((if_neg (hkey c.1)).trans ih)

theorem xattrRows_eq_zero {ino : Nat} : x.xattrRows ino = 0 ↔ ∀ name, x.xattrs.lookup (ino, name) = none := by
  unfold xattrRows
  rw [tally_eq_zero]
  constructor
  · intro h name
    cases hlookup : x.xattrs.lookup (ino, name) with
    | none => rfl
    | some value => simpa using h (ino, name) value hlookup
  · intro h key value hlookup
    simp only [decide_eq_false_iff_not]
    intro heq
    rw [show key = (ino, key.2) from Prod.ext heq rfl, h key.2] at hlookup
    cases hlookup

theorem xattrRows_deleteInodeRows (ino : Nat) (x : RowVolume) : ∀ i, i = ino → (x.deleteInodeRows ino).xattrRows i = 0 := by
  intro i hi
  rw [hi, xattrRows_eq_zero]
  exact fun name => (lookup_others ino x.xattrs (ino, name)).trans (if_pos rfl)

/-! Transactions. -/

/-- What every event keeps: the rows of the namespace are sound, and only files have chunks. -/
structure RowInv (x : RowVolume) : Prop where
  sound : Sound x.volume
  files : ∀ key chunk row, x.chunkRows.lookup key = some chunk → x.volume.inodes.lookup key.1 = some row → row.isDir = false

/-- The rows are in order. -/
def Held (x : RowVolume) : Prop := RowInv x ∧ Owned x

/-- They are exactly under a condition. -/
def HeldIf (p : Prop) (x : RowVolume) : Prop := RowInv x ∧ (Owned x ↔ p)

theorem Held.heldIf {p : Prop} (h : Held x) (hp : p) : HeldIf p x := ⟨h.1, iff_of_true h.2 hp⟩

/-- A transaction that adds the inode `new` and deletes those of `gone`, with their chunk
rows; attributes are left alone, but some of those of deleted inodes may be deleted. -/
structure Transaction (x x' : RowVolume) (new : Option Nat) (gone : Nat → Prop) : Prop where
  inodes : InodesAfter x.volume x'.volume new gone
  fresh : ∀ n, new = some n → n = x.volume.nextInode
  kept : ∀ key, ¬ gone key.1 → x'.xattrs.lookup key = x.xattrs.lookup key
  less : ∀ key value, x'.xattrs.lookup key = some value → x.xattrs.lookup key = some value
  counts : ∀ i, some i ≠ new → x'.xattrCount i = x.xattrCount i
  zero : ∀ n, new = some n → x'.xattrCount n = 0
  chunks : ∀ key chunk, x'.chunkRows.lookup key = some chunk →
    (∃ c, x.chunkRows.lookup key = some c) ∧ ¬ gone key.1 ∨
      ∃ row, x'.volume.inodes.lookup key.1 = some row ∧ row.isDir = false

namespace Transaction

variable {new : Option Nat} {gone : Nat → Prop}

section

variable (h : Transaction x x' new gone)
include h

section

variable (hi : RowInv x) (hp : Owned x)
include hi hp

theorem ne_new {key : Nat × Name} {value : List UInt8} (hkey : x'.xattrs.lookup key = some value) : some key.1 ≠ new := by
  intro heq
  obtain ⟨row, hrow⟩ := hp.xattrs key value (h.less key value hkey)
  have hlt := hi.sound.fresh key.1 row hrow
  have hnext := h.fresh key.1 heq.symm
  omega

/-- The rows are owned after the transaction exactly if deleted inodes leave no attributes. -/
theorem owned_iff : Owned x' ↔ ∀ i, gone i → x'.xattrRows i = 0 := by
  constructor
  · intro hp' i hgone
    rw [xattrRows_eq_zero]
    intro name
    cases hkey : x'.xattrs.lookup (i, name) with
    | none => rfl
    | some value =>
      obtain hnew | ⟨-, hnot⟩ := (h.inodes i).mp (hp'.xattrs (i, name) value hkey)
      · exact absurd hnew (h.ne_new hi hp hkey)
      · exact absurd hgone hnot
  · intro hnone
    refine ⟨fun key chunk hkey => ?_, fun key value hkey => ?_, fun ino row hrow => ?_⟩
    · obtain ⟨⟨c, hc⟩, hnot⟩ | ⟨row, hrow, -⟩ := h.chunks key chunk hkey
      · exact (h.inodes key.1).mpr (.inr ⟨hp.chunks key c hc, hnot⟩)
      · exact ⟨row, hrow⟩
    · by_cases hgone : gone key.1
      · have hzero := xattrRows_eq_zero.mp (hnone key.1 hgone) key.2
        cases hzero.symm.trans hkey
      · exact (h.inodes key.1).mpr (.inr ⟨hp.xattrs key value (h.less key value hkey), hgone⟩)
    · obtain hnew | ⟨⟨row₀, hrow₀⟩, hnot⟩ := (h.inodes ino).mp ⟨row, hrow⟩
      · rw [h.zero ino hnew.symm, eq_comm, xattrRows_eq_zero]
        intro name
        cases hkey : x'.xattrs.lookup (ino, name) with
        | none => rfl
        | some value => exact absurd hnew (h.ne_new hi hp hkey)
      · have hold : some ino ≠ new := by
          intro heq
          have hlt := hi.sound.fresh ino row₀ hrow₀
          have hnext := h.fresh ino heq.symm
          omega
        rw [h.counts ino hold, hp.counts ino row₀ hrow₀]
        refine (tally_eq_of_lookup fun key hkey => ?_).symm
        exact h.kept key (by rwa [of_decide_eq_true hkey])

theorem files (hkinds : KeepsKinds x.volume x'.volume) :
    ∀ key chunk row, x'.chunkRows.lookup key = some chunk → x'.volume.inodes.lookup key.1 = some row →
      row.isDir = false := by
  intro key chunk row hkey hrow
  obtain ⟨⟨c, hc⟩, -⟩ | ⟨row', hrow', hfile⟩ := h.chunks key chunk hkey
  · obtain ⟨row₀, hrow₀⟩ := hp.chunks key c hc
    obtain ⟨hnext, -⟩ | ⟨row₁, hrow₁, hkind⟩ := hkinds key.1 row hrow
    · have hlt := hi.sound.fresh key.1 row₀ hrow₀
      omega
    · rw [hkind]
      exact hi.files key c row₁ hc hrow₁
  · cases hrow.symm.trans hrow'
    exact hfile

theorem keeps (hsound : Sound x'.volume) (hkinds : KeepsKinds x.volume x'.volume) :
    HeldIf (∀ i, gone i → x'.xattrRows i = 0) x' :=
  ⟨⟨hsound, h.files hi hp hkinds⟩, h.owned_iff hi hp⟩

theorem keeps_owned (hsound : Sound x'.volume) (hkinds : KeepsKinds x.volume x'.volume)
    (hnone : ∀ i, gone i → x'.xattrRows i = 0) : Held x' :=
  (h.keeps hi hp hsound hkinds).imp_right fun hiff => hiff.mpr hnone

end

end

variable {v : Volume}

theorem of_inodes (h : KeepsInodes x.volume v) : Transaction x { x with volume := v } none fun _ => False where
  inodes := h
  fresh _ hn := nomatch hn
  kept _ _ := rfl
  less _ _ hkey := hkey
  counts _ _ := rfl
  zero _ hn := nomatch hn
  chunks _ chunk hkey := .inl ⟨⟨chunk, hkey⟩, id⟩

theorem of_created (h : AddsInode x.volume v) :
    Transaction x ({ x with volume := v }.created x.volume.nextInode) (some x.volume.nextInode) fun _ => False where
  inodes := h
  fresh _ hn := (some.inj hn).symm
  kept _ _ := rfl
  less _ _ hkey := hkey
  counts i hne := by
    show ((x.xattrCounts.insert x.volume.nextInode 0).lookup i).getD 0 = _
    rw [lookup_insert, if_neg fun heq => hne (congrArg some heq)]
    rfl
  zero n hn := by
    cases hn
    show ((x.xattrCounts.insert x.volume.nextInode 0).lookup x.volume.nextInode).getD 0 = 0
    rw [lookup_insert, if_pos rfl]
    rfl
  chunks _ chunk hkey := .inl ⟨⟨chunk, hkey⟩, id⟩

theorem applyChunks (h : Transaction x x' new gone) {ino : Nat} {row : Inode}
    (hrow : x'.volume.inodes.lookup ino = some row) (hfile : row.isDir = false) (changes : ChunkChanges) :
    Transaction x (x'.applyChunks ino changes) new gone := by
  refine { h with chunks := fun key chunk hkey => ?_ }
  by_cases heq : key.1 = ino
  · exact .inr ⟨row, heq ▸ hrow, hfile⟩
  · rw [lookup_applyChunks heq] at hkey
    exact h.chunks key chunk hkey

theorem of_deleted {ino : Nat} (h : InodesAfter x.volume v none (· = ino)) :
    Transaction x ({ x with volume := v }.deleteInodeRows ino) none (· = ino) where
  inodes := h
  fresh _ hn := nomatch hn
  kept key hne := (lookup_others ino x.xattrs key).trans (if_neg hne)
  less key value hkey := by
    have hkey := (lookup_others ino x.xattrs key).symm.trans hkey
    split_ifs at hkey
    exact hkey
  counts _ _ := rfl
  zero _ hn := nomatch hn
  chunks key chunk hkey := by
    have hkey := (lookup_others ino x.chunkRows key).symm.trans hkey
    split_ifs at hkey with heq
    exact .inl ⟨⟨chunk, hkey⟩, heq⟩

/-- `Rename` deletes the chunk rows of a file, and a directory has none. -/
theorem of_renamed {w : Volume} {m : Renaming} (hi : RowInv x) (h : Renames x.volume v m w) {y : RowVolume}
    (hvolume : y.volume = v) (hxattrs : y.xattrs = x.xattrs) (hcounts : y.xattrCounts = x.xattrCounts)
    (hchunks : ∀ key chunk, y.chunkRows.lookup key = some chunk → x.chunkRows.lookup key = some chunk ∧
      ∀ ino row, m.target = some (ino, row) → row.isDir = false → row.unlinked.nlink = 0 →
        x.volume.hasOpenHandles ino = false → key.1 ≠ ino) :
    Transaction x y none (x.volume.Replaced m) where
  inodes := hvolume ▸ h.inodesAfter
  fresh _ hn := nomatch hn
  kept _ _ := by rw [hxattrs]
  less _ _ hkey := hxattrs ▸ hkey
  counts i _ := by rw [xattrCount, hcounts, xattrCount]
  zero _ hn := nomatch hn
  chunks key chunk hkey := by
    obtain ⟨hold, hother⟩ := hchunks key chunk hkey
    refine .inl ⟨⟨chunk, hold⟩, fun hgone => ?_⟩
    obtain ⟨row, htarget, hdeletes, -⟩ := hgone
    have hfile := hi.files key chunk row hold (h.reads.target key.1 row htarget).2
    simp only [Renaming.deletes, hfile, Bool.false_or, Bool.and_eq_true, decide_eq_true_eq, Bool.not_eq_true'] at hdeletes
    exact hother key.1 row htarget hfile hdeletes.1 hdeletes.2 rfl

end Transaction

/-! Calls. -/

variable {ok : Bool} {v : Volume}

theorem ofLink_ne_renamed (r : Except VolumeError Nat) (m : Renaming) : Done.ofLink r ≠ .renamed m := by
  cases r <;> nofun

theorem ofRmdir_ne_renamed (entry : Option DirEntry) (r : Except VolumeError Unit) (m : Renaming) :
    Done.ofRmdir entry r ≠ .renamed m := by
  unfold Done.ofRmdir
  split <;> nofun

theorem map_ok {r : Reply Nat}
    (h : some (r.map id (Except.map fun _ => ())) = some (v, .ok ())) : ∃ ino, r = (v, .ok ino) := by
  obtain ⟨w, result⟩ := r
  cases result with
  | error err => cases h
  | ok ino =>
    cases h
    exact ⟨ino, rfl⟩

theorem restart_inodes (next : Nat) (ok : Bool) (v : Volume) (i : Nat) :
    (v.restart next ok).inodes.lookup i = if ok = true ∧ i ∈ v.orphans then none else v.inodes.lookup i := by
  unfold Volume.restart
  cases ok with
  | false => simp
  | true => simp only [if_true, commit_deleteInodes, true_and]

section

variable (hi : RowInv x) (hp : Owned x)
include hi hp

/-- A call that succeeds is a transaction; what it leaves of deleted inodes are the
attributes of what `Rename` has replaced. -/
theorem dependents_owned (changes : ChunkChanges) {call : NamespaceCall}
    (h : x.volume.serve ok call = some (v, .ok ())) :
    HeldIf (x.Tidy (.call call changes ok)) (dependents changes x { x with volume := v } call) := by
  have hout := serve_outcome h
  have hkeeps : ∀ {new gone} {y : RowVolume}, Transaction x y new gone → y.volume = v →
      HeldIf (∀ i, gone i → y.xattrRows i = 0) y :=
    fun htx hvolume => htx.keeps hi hp (hvolume ▸ hout.sound hi.sound) (hvolume ▸ hout.keepsKinds hi.sound)
  -- a call other than `Rename` is tidy
  have htidy : ∀ {new gone} {y : RowVolume}, Transaction x y new gone → y.volume = v → (∀ i, gone i → y.xattrRows i = 0) →
      (∀ m, x.volume.does ok call ≠ .renamed m) → HeldIf (x.Tidy (.call call changes ok)) y :=
    fun htx hvolume hnone hother =>
      (hkeeps htx hvolume).imp_right fun hiff => iff_of_true (hiff.mpr hnone) fun m hm => absurd hm (hother m)
  cases call with
  | mkdir parent name mode =>
    obtain ⟨ino, hino⟩ := map_ok h
    exact htidy (.of_created ((mkdir_answered hino).done ino rfl)) rfl (fun _ => False.elim) nofun
  | symlink parent name =>
    obtain ⟨ino, hino⟩ := map_ok h
    exact htidy (.of_created ((symlink_answered hino).done ino rfl)) rfl (fun _ => False.elim) nofun
  | link oldInodeID newParent newName =>
    obtain ⟨ino, hino⟩ := map_ok h
    exact htidy (.of_inodes ((link_answered hino).done ino rfl)) rfl (fun _ => False.elim) (ofLink_ne_renamed _)
  | createFile parent name mode =>
    obtain ⟨ino, hino⟩ := map_ok h
    obtain ⟨hfresh, hentry⟩ := (createFile_answered hino).done ino rfl
    obtain ⟨row, hrow, hfile⟩ := hfresh (eq_none_iff_forall_ne_some.2 fun row hrow =>
      lt_irrefl _ (hi.sound.fresh _ row hrow))
    cases hlookup : x.volume.dirEntries.lookup (x.volume.normalizeInodeID parent, name) with rw [hlookup] at hentry
    | some de =>
      simp only [dependents, hlookup]
      obtain ⟨rfl, hinodes⟩ := hentry
      exact htidy ((Transaction.of_inodes hinodes).applyChunks hrow hfile changes) rfl (fun _ => False.elim) nofun
    | none =>
      simp only [dependents, hlookup]
      obtain ⟨rfl, hinodes⟩ := hentry
      exact htidy ((Transaction.of_created hinodes).applyChunks hrow hfile changes) rfl (fun _ => False.elim) nofun
  | unlink parent name =>
    obtain ⟨de, row, hentry, hrow, hinodes⟩ := unlink_inodes hi.sound (some.inj h)
    simp only [dependents, hentry, hrow]
    split_ifs with hdelete
    · have hgone : InodesAfter x.volume v none (· = de.ino) := by
        simpa only [hdelete, and_true] using hinodes
      exact htidy (.of_deleted hgone) rfl (xattrRows_deleteInodeRows _ _) nofun
    · have hgone : KeepsInodes x.volume v := by
        simpa only [hdelete, and_false] using hinodes
      exact htidy (.of_inodes hgone) rfl (fun _ => False.elim) nofun
  | rmdir parent name =>
    obtain ⟨de, hentry, hinodes⟩ := (rmdir_answered (some.inj h)).done () rfl
    simp only [dependents, hentry]
    exact htidy (.of_deleted hinodes) rfl (xattrRows_deleteInodeRows _ _) (ofRmdir_ne_renamed _ _)
  | rename oldParent oldName newParent newName =>
    obtain ⟨rfl, m, haccepted⟩ := (rename_answered h).done () rfl
    have hdoes : x.volume.does true (.rename oldParent oldName newParent newName) = .renamed m := by
      show Done.ofRename (x.volume.acceptedRename oldParent oldName newParent newName) = _
      rw [haccepted]
      rfl
    have heffect := hout.effect
    rw [hdoes] at heffect
    cases heffect with
    | renamed _ w renames =>
      have hrenamed : (∀ i, x.volume.Replaced m i → x.xattrRows i = 0) ↔
          x.Tidy (.call (.rename oldParent oldName newParent newName) changes true) := by
        constructor
        · intro hnone m' hm' ino hino
          cases hdoes.symm.trans hm'
          exact hnone ino hino
        · exact fun hok => hok m hdoes
      have hkept {y : RowVolume} (htx : Transaction x y none (x.volume.Replaced m)) (hvolume : y.volume = v)
          (hxattrs : y.xattrs = x.xattrs) :
          HeldIf (x.Tidy (.call (.rename oldParent oldName newParent newName) changes true)) y := by
        refine (hkeeps htx hvolume).imp_right fun hiff => hiff.trans ?_
        unfold xattrRows at hrenamed ⊢
        rwa [hxattrs]
      simp only [dependents, haccepted]
      cases htarget : m.target with
      | none => exact hkept (.of_renamed hi renames rfl rfl rfl fun key chunk hkey => ⟨hkey, by simp [htarget]⟩) rfl rfl
      | some target =>
        obtain ⟨ino, row⟩ := target
        simp only
        split_ifs with hfile
        · refine hkept (.of_renamed hi renames rfl rfl rfl fun key chunk hkey => ?_) rfl rfl
          have hkey := (lookup_others ino x.chunkRows key).symm.trans hkey
          split_ifs at hkey with heq
          refine ⟨hkey, fun ino' row' htarget' _ _ _ => ?_⟩
          cases htarget.symm.trans htarget'
          exact heq
        · refine hkept (.of_renamed hi renames rfl rfl rfl fun key chunk hkey => ⟨hkey, ?_⟩) rfl rfl
          intro ino' row' htarget' hdir hlinks hopened
          cases htarget.symm.trans htarget'
          exact absurd ⟨hdir, hlinks, hopened⟩ hfile

theorem serve_owned {changes : ChunkChanges} {call : NamespaceCall}
    (h : x.serve ok changes call = some x') : HeldIf (x.Tidy (.call call changes ok)) x' := by
  unfold serve at h
  split at h <;> cases h
  · rename_i v err hserve
    obtain ⟨hout, hfailed, -⟩ := serve_answered hserve
    obtain ⟨hplain, hinodes⟩ := hfailed err rfl
    have hheld := (Transaction.of_inodes (inodesAfter_of_same hinodes)).keeps_owned hi hp
      (hout.sound hi.sound) (hout.keepsKinds hi.sound) fun _ => False.elim
    exact hheld.heldIf fun m hm => nomatch hplain.symm.trans hm
  · rename_i v hserve
    exact dependents_owned hi hp changes hserve

/-! Handles and restarts. -/

theorem release_owned (inodeID fh : Nat) : Held (x.release inodeID fh) := by
  obtain ⟨hreleased, -⟩ := release_released inodeID fh x.volume
  have hsound := hreleased.sound hi.sound
  have hkinds : KeepsKinds x.volume (x.volume.release inodeID fh) :=
    fun i row' hi' => .inr ⟨row', hreleased.rows i row' hi', rfl⟩
  -- the row is not deleted
  have hstays : KeepsInodes x.volume (x.volume.release inodeID fh) →
      Held { x with volume := x.volume.release inodeID fh } := by
    exact fun hsame => (Transaction.of_inodes hsame).keeps_owned hi hp hsound hkinds fun _ => False.elim
  cases hrow : x.volume.inodes.lookup (x.volume.releasedInode inodeID fh) with simp only [release, hrow]
  | none =>
    obtain ⟨hinodes, -⟩ | ⟨-, -, row, hrow', -⟩ := hreleased.inodes
    · exact hstays (inodesAfter_of_same hinodes)
    · cases hrow.symm.trans hrow'
  | some row =>
    obtain ⟨hinodes, hkept⟩ | ⟨hinodes, hlast, row', hrow', hfile, hlinks⟩ := hreleased.inodes
    · rw [if_neg]
      · exact hstays (inodesAfter_of_same hinodes)
      · intro hdelete
        obtain hmany | hnot := hkept
        · omega
        · obtain hdir | hlinks := hnot row hrow
          · simp [hdir] at hdelete
          · exact hlinks hdelete.2.2
    · cases hrow.symm.trans hrow'
      rw [if_pos ⟨hlast, hfile, hlinks⟩]
      have hgone : InodesAfter x.volume (x.volume.release inodeID fh) none (· = x.volume.releasedInode inodeID fh) := by
        intro i
        rw [hinodes, lookup_erase]
        by_cases heq : i = x.volume.releasedInode inodeID fh <;> simp [heq]
      exact (Transaction.of_deleted hgone).keeps_owned hi hp hsound hkinds (xattrRows_deleteInodeRows _ _)

theorem restart_owned {next : Nat} (hnext : x.volume.numbersBelow next = true) :
    HeldIf (x.Tidy (.restart next ok)) (x.restart next ok) := by
  have htx : Transaction x (x.restart next ok) none fun i => ok = true ∧ i ∈ x.volume.orphans := by
    refine ⟨fun i => ?_, nofun, fun _ _ => rfl, fun _ _ hkey => hkey, fun _ _ => rfl, nofun, fun key chunk hkey => ?_⟩
    · show (∃ row, (x.volume.restart next ok).inodes.lookup i = some row) ↔ _
      rw [restart_inodes]
      split_ifs with hgone <;> simp [hgone]
    · have hkey : (select (fun key : Nat × Nat => decide (key.1 ∉ if ok then x.volume.orphans else []))
        x.chunkRows).lookup key = some chunk := hkey
      rw [lookup_select] at hkey
      by_cases hstays : decide (key.1 ∉ if ok then x.volume.orphans else []) = true
      · rw [if_pos hstays] at hkey
        refine .inl ⟨⟨chunk, hkey⟩, fun hgone => ?_⟩
        rw [if_pos hgone.1] at hstays
        exact of_decide_eq_true hstays hgone.2
      · rw [if_neg hstays] at hkey
        cases hkey
  have hkinds : KeepsKinds x.volume (x.restart next ok).volume :=
    fun i row' hi' => .inr ⟨row', (restart_rows next ok x.volume).2.1 i row' hi', rfl⟩
  refine (htx.keeps hi hp (restart_sound ok hi.sound hnext) hkinds).imp_right fun hiff => hiff.trans ?_
  constructor
  · exact fun hnone hok ino hino => hnone ino ⟨hok, hino⟩
  · exact fun hok ino hino => hok hino.1 ino hino.2

/-! Attributes. -/

/-- Only the attributes of one inode change, and its count with them. -/
theorem xattr_owned {ino : Nat} {row : Inode}
    {xattrs : AList fun _ : Nat × Name => List UInt8} {counts : AList fun _ : Nat => Nat} (hsame : x.volume.SameRows v)
    (hrow : x.volume.inodes.lookup ino = some row)
    (hothers : ∀ key, key.1 ≠ ino → xattrs.lookup key = x.xattrs.lookup key)
    (hcounts : ∀ i, i ≠ ino → counts.lookup i = x.xattrCounts.lookup i)
    (hcount : (counts.lookup ino).getD 0 = Table.tally (fun key _ => decide (key.1 = ino)) xattrs) :
    Held { x with volume := v, xattrs, xattrCounts := counts } := by
  have hinodes : v.inodes = x.volume.inodes := hsame.inodes
  refine ⟨⟨hi.sound.of_same hsame.dirEntries hsame.rootInodeID hinodes hsame.sameNext, ?_⟩, ⟨?_, ?_, ?_⟩⟩
  · rw [hinodes]
    exact hi.files
  · rw [hinodes]
    exact hp.chunks
  · intro key value hkey
    rw [hinodes]
    by_cases heq : key.1 = ino
    · exact ⟨row, heq ▸ hrow⟩
    · exact hp.xattrs key value ((hothers key heq).symm.trans hkey)
  · intro i row' hi'
    rw [hinodes] at hi'
    by_cases heq : i = ino
    · subst heq
      exact hcount
    · have hold := hp.counts i row' hi'
      unfold xattrCount xattrRows at hold ⊢
      rw [hcounts i heq, hold]
      refine (tally_eq_of_lookup fun key hkey => hothers key ?_).symm
      rwa [of_decide_eq_true hkey]

theorem same_owned (hinodes : v.inodes = x.volume.inodes) (hentries : v.dirEntries = x.volume.dirEntries)
    (hnext : v.nextInode = x.volume.nextInode)
    (hroot : v.rootInodeID = x.volume.rootInodeID) : Held { x with volume := v } := by
  refine (Transaction.of_inodes (inodesAfter_of_same hinodes)).keeps_owned hi hp
    (hi.sound.of_same hentries hroot hinodes hnext) (fun i row' hi' => .inr ⟨row', ?_, rfl⟩) fun _ => False.elim
  exact hinodes ▸ hi'

theorem loaded_owned (h : x.volume.SameRows v) : Held { x with volume := v } :=
  same_owned hi hp h.inodes h.dirEntries h.sameNext h.rootInodeID

theorem setXAttr_owned (ok : Bool) (inodeID : Nat) (name : Name) (value : List UInt8)
    (flags : XAttrFlags) : Held (x.setXAttr ok inodeID name value flags).1 := by
  unfold setXAttr
  split
  · exact ⟨hi, hp⟩
  split
  · exact ⟨hi, hp⟩
  simp only
  split
  · exact ⟨hi, hp⟩
  rename_i row hrow
  have hload := (SameRows.refl x.volume).loaded (x.volume.normalizeInodeID inodeID) row
  split_ifs with hexists hmissing hfails hfound
  · exact loaded_owned hi hp hload
  · exact loaded_owned hi hp hload
  · exact loaded_owned hi hp hload
  · -- the value is replaced
    refine xattr_owned hi hp hload hrow (fun key hne => ?_) (fun _ _ => rfl) ?_
    · rw [lookup_insert, if_neg fun heq => hne (congrArg Prod.fst heq)]
    · obtain ⟨old, hold⟩ := isSome_iff_exists.mp hfound
      have hcount := hp.counts _ row hrow
      rw [xattrCount, xattrRows, tally_erase _ hold] at hcount
      rw [hcount, tally_insert]
  · refine xattr_owned hi hp hload hrow (fun key hne => ?_) (fun i hne => ?_) ?_
    · rw [lookup_insert, if_neg fun heq => hne (congrArg Prod.fst heq)]
    · rw [lookup_insert, if_neg hne]
    · have hnone : x.xattrs.lookup (x.volume.normalizeInodeID inodeID, name) = none := by simpa using hfound
      rw [lookup_insert, if_pos rfl, tally_insert_of_none _ _ hnone]
      simp only [getD_some, decide_true, if_true]
      exact congrArg (· + 1) (hp.counts _ row hrow)

theorem removeXAttr_owned (ok : Bool) (inodeID : Nat) (name : Name) : Held (x.removeXAttr ok inodeID name).1 := by
  unfold removeXAttr
  split
  · exact ⟨hi, hp⟩
  simp only
  split
  · exact ⟨hi, hp⟩
  rename_i row hrow
  have hload := (SameRows.refl x.volume).loaded (x.volume.normalizeInodeID inodeID) row
  split_ifs with hmissing hfails
  · exact loaded_owned hi hp hload
  · exact loaded_owned hi hp hload
  · refine xattr_owned hi hp hload hrow (fun key hne => ?_) (fun i hne => ?_) ?_
    · rw [lookup_erase, if_neg fun heq => hne (congrArg Prod.fst heq)]
    · rw [lookup_insert, if_neg hne]
    · obtain ⟨old, hold⟩ := ne_none_iff_exists'.mp hmissing
      have hcount := hp.counts _ row hrow
      rw [xattrRows, tally_erase _ hold] at hcount
      simp only [decide_true, if_true] at hcount
      rw [lookup_insert, if_pos rfl, getD_some]
      show x.xattrCount _ - 1 = _
      omega

/-! Histories. -/

theorem step_owned {e : RowEvent} (h : x.step e = some x') : HeldIf (x.Tidy e) x' := by
  cases e with simp only [step] at h
  | call call changes ok => exact serve_owned hi hp h
  | data ino changes =>
    split at h
    · cases h
    rename_i row hrow
    split_ifs at h with hdir
    cases h
    have hsame : Transaction x x none fun _ => False := .of_inodes (inodesAfter_of_same rfl)
    exact ((hsame.applyChunks hrow (by simpa using hdir) changes).keeps_owned hi hp hi.sound
      (fun i row' hi' => .inr ⟨row', hi', rfl⟩) fun _ => False.elim).heldIf trivial
  | setXAttr inodeID name value flags ok =>
    cases h
    exact (setXAttr_owned hi hp ok inodeID name value flags).heldIf trivial
  | removeXAttr inodeID name ok =>
    cases h
    exact (removeXAttr_owned hi hp ok inodeID name).heldIf trivial
  | openFile inodeID =>
    split at h <;> cases h
    exact Held.heldIf (same_owned hi hp rfl rfl rfl rfl) trivial
  | release inodeID fh =>
    cases h
    exact (release_owned hi hp inodeID fh).heldIf trivial
  | restart next ok =>
    split_ifs at h with hnext
    cases h
    exact restart_owned hi hp hnext

end

theorem init_rowInv (closeToOpen requirePermanent : Bool) : RowInv (init closeToOpen requirePermanent) where
  sound := init_sound closeToOpen requirePermanent
  files _ _ _ hkey := nomatch hkey

theorem init_owned (closeToOpen requirePermanent : Bool) : Owned (init closeToOpen requirePermanent) where
  chunks _ _ hkey := nomatch hkey
  xattrs _ _ hkey := nomatch hkey
  counts ino row hrow := by
    rw [(init_inodes hrow).1]
    rfl

/-- **Rows belong to inodes.** Along every history of a new volume, every chunk row and every
attribute row belongs to an inode that is there and counts are right, exactly if neither
`Rename` nor a restart deletes an inode that has attributes. -/
theorem rows_owned_iff (closeToOpen requirePermanent : Bool) (events : List RowEvent) :
    Throughout step Owned (init closeToOpen requirePermanent) events ↔
      Allowed step Tidy (init closeToOpen requirePermanent) events :=
  throughout_iff_allowed (fun _ _ _ hi hp h => step_owned hi hp h) events
    (init_rowInv closeToOpen requirePermanent) (init_owned closeToOpen requirePermanent)

/-- A file is renamed over one that has an attribute. -/
def renamedOverAttribute : List RowEvent :=
  [.call (.createFile 1 [97] 0) {} true, .setXAttr 8 [117] [1] .unspecified true, .call (.createFile 1 [98] 0) {} true,
    .call (.rename 1 [98] 1 [97]) {} true]

/-- A file with an attribute is removed while it is open, and the volume is loaded anew. -/
def removedWhileOpen : List RowEvent :=
  [.call (.createFile 1 [97] 0) {} true, .setXAttr 8 [117] [1] .unspecified true, .openFile 8,
    .call (.unlink 1 [97]) {} true, .restart 16 true]

/-- The attribute of inode 8, and the inode. -/
def attributeAfter (events : List RowEvent) : Option (Option (List UInt8) × Option Inode) :=
  (exec step (init false false) events).map fun x => (x.xattrs.lookup (8, [117]), x.volume.inodes.lookup 8)

theorem not_owned_of_attribute {events : List RowEvent} {value : List UInt8}
    (h : attributeAfter events = some (some value, none)) : ¬ Throughout step Owned (init false false) events := by
  intro howned
  obtain ⟨x, hexec, hx⟩ := map_eq_some_iff.mp h
  obtain ⟨hxattr, hinode⟩ := Prod.mk.inj hx
  obtain ⟨row, hrow⟩ := (howned.last hexec).xattrs (8, [117]) value hxattr
  cases hinode.symm.trans hrow

/-- **Attributes without an inode.** -/
theorem rows_orphaned :
    attributeAfter renamedOverAttribute = some (some [1], none) ∧
      ¬ Throughout step Owned (init false false) renamedOverAttribute ∧
      attributeAfter removedWhileOpen = some (some [1], none) ∧
      ¬ Throughout step Owned (init false false) removedWhileOpen := by
  have hrenamed : attributeAfter renamedOverAttribute = some (some [1], none) := by decide +kernel
  have hremoved : attributeAfter removedWhileOpen = some (some [1], none) := by decide +kernel
  exact ⟨hrenamed, not_owned_of_attribute hrenamed, hremoved, not_owned_of_attribute hremoved⟩

end RowVolume

end InClusterStorage.Controller
