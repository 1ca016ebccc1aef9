import InClusterStorage.Controller.Staging

/- The files of a volume (`volume.go`): its inode and directory rows, the open
   handles, and the calls that change them.

   A call reads the rows it needs and then commits its changes to them in one
   transaction, applied in the order in which they were buffered; an insert and
   an update both set the row of their key. Every row that a call loads is a copy
   of its own, also where two of them are copies of one row. `dirParents` remembers
   the parents of the directories that were loaded.

   A file has fewer than `2^32` links, which is the bound of `Nlink`.

   Chunk and attribute rows, sizes, owners and times are left out, and so are the
   checks for back pressure and for space in the staging area, which fail before
   anything is changed. -/
namespace InClusterStorage.Controller

/-- The bytes of a name. -/
abbrev Name := List UInt8

def maxNameLength : Nat := 255

/-- Empty, `.` or `..`. -/
def invalidName (name : Name) : Prop := name = [] ∨ name = [46] ∨ name = [46, 46]

instance (name : Name) : Decidable (invalidName name) := inferInstanceAs (Decidable (_ ∨ _))

inductive VolumeError where
  | enametoolong
  | einval
  | enoent
  | enotdir
  | eisdir
  | eexist
  | enotempty
  | eperm
  | eio
  /-- the transaction fails -/
  | commit
  | sync (err : SyncError)
  deriving DecidableEq, Repr

structure Inode where
  isDir : Bool
  mode : Nat
  nlink : Nat
  parentIno : Nat := 0
  deriving DecidableEq, Repr

structure DirEntry where
  ino : Nat
  isDir : Bool
  mode : Nat
  deriving DecidableEq, Repr

structure Volume where
  /-- `CLOSE_TO_OPEN` consistency -/
  closeToOpen : Bool
  rootInodeID : Nat := 1
  nextInode : Nat := 8
  inodes : AList fun _ : Nat => Inode
  dirEntries : AList (fun _ : Nat × Name => DirEntry) := ∅
  /-- the parents of the directories seen so far -/
  dirParents : AList (fun _ : Nat => Nat) := ∅
  handles : AList (fun _ : Nat => Nat) := ∅
  openInodes : AList (fun _ : Nat => Nat) := ∅
  nextFh : Nat := 0
  staging : Staging

/-! Link counts. -/

/-- The parent of one more entry: a subdirectory counts as a link. -/
def Inode.gains (parent : Inode) (subdirectory : Bool) : Inode :=
  if subdirectory then { parent with nlink := max parent.nlink 2 + 1 } else parent

/-- The parent of one subdirectory less. -/
def Inode.loses (parent : Inode) : Inode :=
  { parent with nlink := if parent.nlink > 2 then parent.nlink - 1 else parent.nlink }

/-- One link more. An inode without links counts as one that has one. -/
def Inode.linked (row : Inode) : Inode :=
  { row with nlink := (if row.nlink = 0 then 1 else row.nlink) + 1 }

def Inode.unlinked (row : Inode) : Inode :=
  { row with nlink := if row.nlink > 1 then row.nlink - 1 else 0 }

/-! Transactions. -/

/-- A row change of a transaction. -/
inductive Change where
  | putInode (ino : Nat) (row : Inode)
  | deleteInode (ino : Nat)
  | putDirEntry (parent : Nat) (name : Name) (entry : DirEntry)
  | deleteDirEntry (parent : Nat) (name : Name)
  deriving DecidableEq, Repr

/-! Renames. -/

/-- What `Rename` has read. -/
structure Renaming where
  oldParent : Nat
  oldName : Name
  newParent : Nat
  newName : Name
  childIno : Nat
  childInode : Inode
  oldParentInode : Inode
  newParentInode : Inode
  target : Option (Nat × Inode)
  deriving DecidableEq, Repr

variable (m : Renaming)

namespace Renaming

/-- A directory moves from one directory to another. -/
def between : Bool := m.childInode.isDir && decide (m.newParent ≠ m.oldParent)

def childAfter : Inode :=
  if m.childInode.isDir then { m.childInode with parentIno := m.newParent } else m.childInode

def oldParentAfter : Inode :=
  if m.between then m.oldParentInode.loses else m.oldParentInode

/-- Where a directory replaces another one in the same parent, this copy of the parent
loses a link; it is not written then. -/
def newParentAfter : Inode :=
  if m.between then m.newParentInode.gains m.target.isNone
  else if m.childInode.isDir ∧ m.target.isSome then m.newParentInode.loses
  else m.newParentInode

/-- The rows of the moved inode and of its parents. -/
def moved : List Change :=
  [.putInode m.childIno m.childAfter, .putInode m.oldParent m.oldParentAfter] ++
    if m.newParent ≠ m.oldParent then [.putInode m.newParent m.newParentAfter] else []

end Renaming

/-- The walk from `current` to the root looks for the directory that is to be moved. It
need not end: `none` is a walk of more steps than there are parents to follow. -/
def isBelow (child root : Nat) (dirParents : AList fun _ : Nat => Nat) : Nat → Nat → Option Bool
  | 0, _ => none
  | fuel + 1, current =>
    if current = 0 ∨ current = root then some false
    else if current = child then some true
    else
      match dirParents.lookup current with
      | none => some false
      | some parent => if parent = current then some false else isBelow child root dirParents fuel parent

/-! Calls. -/

inductive NamespaceCall where
  | mkdir (parent : Nat) (name : Name) (mode : Nat)
  | createFile (parent : Nat) (name : Name) (mode : Nat)
  | symlink (parent : Nat) (name : Name)
  | link (oldInodeID newParent : Nat) (newName : Name)
  | unlink (parent : Nat) (name : Name)
  | rmdir (parent : Nat) (name : Name)
  | rename (oldParent : Nat) (oldName : Name) (newParent : Nat) (newName : Name)
  deriving DecidableEq, Repr

namespace Volume

def apply (v : Volume) : Change → Volume
  | .putInode ino row => { v with inodes := v.inodes.insert ino row }
  | .deleteInode ino => { v with inodes := v.inodes.erase ino }
  | .putDirEntry parent name entry => { v with dirEntries := v.dirEntries.insert (parent, name) entry }
  | .deleteDirEntry parent name => { v with dirEntries := v.dirEntries.erase (parent, name) }

def commit (changes : List Change) (v : Volume) : Volume := changes.foldl apply v

def normalizeInodeID (id : Nat) (v : Volume) : Nat :=
  if id = 0 then (if v.rootInodeID ≠ 0 then v.rootInodeID else 1) else id

/-- `getOrLoadInodeLocked` remembers the parent of a directory it has loaded. -/
def loaded (ino : Nat) (row : Inode) (v : Volume) : Volume :=
  if row.isDir ∧ row.parentIno ≠ 0 then { v with dirParents := v.dirParents.insert ino row.parentIno }
  else v

def hasOpenHandles (ino : Nat) (v : Volume) : Bool :=
  match v.openInodes.lookup ino with
  | some n => decide (n > 0)
  | none => false

/-- Commit a transaction and return `result`, or fail with nothing committed. -/
def commitTx {α : Type} (ok : Bool) (changes : List Change) (result : α) (v : Volume) : Volume × Except VolumeError α :=
  if ok then (v.commit changes, .ok result) else (v, .error .commit)

/-! New names. -/

def sIfmt : Nat := 0o170000
def sIfdir : Nat := 0o040000
def sIfreg : Nat := 0o100000
def sIflnk : Nat := 0o120000

/-- What is wrong with the name of a new entry. -/
def nameError (name : Name) : Option VolumeError :=
  if name.length > maxNameLength then some .enametoolong
  else if invalidName name then some .einval
  else none

/-- A new inode, its entry, and its parent. -/
def addition (parent : Nat) (parentInode : Inode) (name : Name) (ino : Nat) (child : Inode) : List Change :=
  [.putInode ino child, .putDirEntry parent name { ino, isDir := child.isDir, mode := child.mode },
    .putInode parent (parentInode.gains child.isDir)]

def setgid : Nat := 0o2000

/-- The mode of a new directory. -/
def dirMode (mode parentMode : Nat) : Nat :=
  let mode := (if mode = 0 then 0o755 else mode) ||| sIfdir
  if parentMode &&& setgid ≠ 0 then mode ||| setgid else mode

/-- Where the transaction fails, the parent that was remembered is forgotten again. -/
def mkdir (ok : Bool) (parent : Nat) (name : Name) (mode : Nat) (v : Volume) : Volume × Except VolumeError Nat :=
  match nameError name with
  | some err => (v, .error err)
  | none =>
    let parent := v.normalizeInodeID parent
    match v.inodes.lookup parent with
    | none => (v, .error .enoent)
    | some parentInode =>
      let v := v.loaded parent parentInode
      if parentInode.isDir = false then (v, .error .enotdir)
      else if (v.dirEntries.lookup (parent, name)).isSome then (v, .error .eexist)
      else
        let ino := v.nextInode
        let v := { v with nextInode := v.nextInode + 8 }
        let child : Inode :=
          { isDir := true, mode := dirMode mode parentInode.mode, nlink := 2, parentIno := parent }
        if ok then
          ({ v with dirParents := v.dirParents.insert ino parent }.commit
            (addition parent parentInode name ino child), .ok ino)
        else ({ v with dirParents := v.dirParents.erase ino }, .error .commit)

/-- FIFO, socket, character and block device. -/
def specialFiles : List Nat := [0o010000, 0o140000, 0o020000, 0o060000]

/-- The mode of a new file, with the defaults filled in, unless its type is not supported. -/
def fileMode (mode : Nat) : Option Nat :=
  let mode := if mode &&& sIfmt = 0 then (if mode &&& 0o777 = 0 then mode ||| 0o644 else mode) ||| sIfreg
    else mode
  if mode &&& sIfmt = sIfreg ∨ mode &&& sIfmt ∈ specialFiles then some mode else none

/-- On an existing regular file, `CreateFile` writes the file anew. -/
def createFile (ok : Bool) (parent : Nat) (name : Name) (mode : Nat) (v : Volume) : Volume × Except VolumeError Nat :=
  match nameError name with
  | some err => (v, .error err)
  | none =>
    let parent := v.normalizeInodeID parent
    match v.inodes.lookup parent with
    | none => (v, .error .enoent)
    | some parentInode =>
      let v := v.loaded parent parentInode
      if parentInode.isDir = false then (v, .error .enotdir)
      else
        match fileMode mode with
        | none => (v, .error .einval)
        | some mode =>
          match v.dirEntries.lookup (parent, name) with
          | some de =>
            match v.inodes.lookup de.ino with
            | none => (v, .error .enoent)
            | some childInode =>
              let v := v.loaded de.ino childInode
              if childInode.isDir then (v, .error .eisdir)
              else if mode &&& sIfmt ≠ sIfreg ∨ childInode.mode &&& sIfmt ≠ sIfreg then (v, .error .eexist)
              else v.commitTx ok [.putInode de.ino { childInode with mode }, .putInode parent parentInode] de.ino
          | none =>
            let ino := v.nextInode
            { v with nextInode := v.nextInode + 8 }.commitTx ok
              (addition parent parentInode name ino { isDir := false, mode, nlink := 1 }) ino

def symlink (ok : Bool) (parent : Nat) (name : Name) (v : Volume) : Volume × Except VolumeError Nat :=
  match nameError name with
  | some err => (v, .error err)
  | none =>
    let parent := v.normalizeInodeID parent
    match v.inodes.lookup parent with
    | none => (v, .error .enoent)
    | some parentInode =>
      let v := v.loaded parent parentInode
      if parentInode.isDir = false then (v, .error .enotdir)
      else if (v.dirEntries.lookup (parent, name)).isSome then (v, .error .eexist)
      else
        let ino := v.nextInode
        { v with nextInode := v.nextInode + 8 }.commitTx ok
          (addition parent parentInode name ino { isDir := false, mode := 0o777 ||| sIflnk, nlink := 1 }) ino

def link (ok : Bool) (oldInodeID newParent : Nat) (newName : Name) (v : Volume) : Volume × Except VolumeError Nat :=
  match nameError newName with
  | some err => (v, .error err)
  | none =>
    let ino := v.normalizeInodeID oldInodeID
    let newParent := v.normalizeInodeID newParent
    match v.inodes.lookup ino with
    | none => (v, .error .enoent)
    | some oldNode =>
      let v := v.loaded ino oldNode
      if oldNode.isDir ∨ oldNode.mode &&& sIfmt = sIfdir then (v, .error .eperm)
      else
        match v.inodes.lookup newParent with
        | none => (v, .error .enoent)
        | some newParentInode =>
          let v := v.loaded newParent newParentInode
          if newParentInode.isDir = false then (v, .error .enotdir)
          else if (v.dirEntries.lookup (newParent, newName)).isSome then (v, .error .eexist)
          else v.commitTx ok
            [.putInode ino oldNode.linked,
              .putDirEntry newParent newName { ino, isDir := false, mode := oldNode.mode },
              .putInode newParent newParentInode] ino

/-! Removed names. -/

/-- The first section of `Unlink`: the inode that the name refers to. -/
def unlinkResolve (parent : Nat) (name : Name) (v : Volume) : Volume × Except VolumeError Nat :=
  if name.length > maxNameLength then (v, .error .enametoolong)
  else
    match v.dirEntries.lookup (v.normalizeInodeID parent, name) with
    | none => (v, .error .enoent)
    | some de =>
      match v.inodes.lookup de.ino with
      | none => (v, .error .enoent)
      | some childInode =>
        let v := v.loaded de.ino childInode
        if childInode.isDir then (v, .error .eisdir) else (v, .ok de.ino)

/-- Between the sections. -/
def unlinkDrop (childIno : Nat) (v : Volume) : Volume :=
  { v with staging := v.staging.dropStagedChunksLocked childIno }

/-- The second section looks for the name again, and removes a link of the inode that the
first one has found. -/
def unlinkRemove (ok : Bool) (parent : Nat) (name : Name) (childIno : Nat) (v : Volume) :
    Volume × Except VolumeError Unit :=
  let parent := v.normalizeInodeID parent
  match v.dirEntries.lookup (parent, name) with
  | none => (v, .error .enoent)
  | some _ =>
    match v.inodes.lookup childIno with
    | none => (v, .error .enoent)
    | some childInode =>
      let v := v.loaded childIno childInode
      match v.inodes.lookup parent with
      | none => (v, .error .enoent)
      | some parentInode =>
        let v := v.loaded parent parentInode
        let childInode := childInode.unlinked
        let removal : Change :=
          if childInode.nlink = 0 ∧ v.hasOpenHandles childIno = false then .deleteInode childIno
          else .putInode childIno childInode
        v.commitTx ok [removal, .deleteDirEntry parent name, .putInode parent parentInode] ()

def unlink (ok : Bool) (parent : Nat) (name : Name) (v : Volume) : Volume × Except VolumeError Unit :=
  match v.unlinkResolve parent name with
  | (v, .error err) => (v, .error err)
  | (v, .ok childIno) => (v.unlinkDrop childIno).unlinkRemove ok parent name childIno

def isEmptyDir (ino : Nat) (v : Volume) : Bool := v.dirEntries.entries.all fun e => e.1.1 ≠ ino

def rmdir (ok : Bool) (parent : Nat) (name : Name) (v : Volume) : Volume × Except VolumeError Unit :=
  if name.length > maxNameLength then (v, .error .enametoolong)
  else
    let parent := v.normalizeInodeID parent
    match v.dirEntries.lookup (parent, name) with
    | none => (v, .error .enoent)
    | some de =>
      match v.inodes.lookup de.ino with
      | none => (v, .error .enoent)
      | some childInode =>
        let v := v.loaded de.ino childInode
        if childInode.isDir = false then (v, .error .enotdir)
        else if v.isEmptyDir de.ino = false then (v, .error .enotempty)
        else
          let v := { v with dirParents := v.dirParents.erase de.ino }
          match v.inodes.lookup parent with
          | none => (v, .error .enoent)
          | some parentInode =>
            let v := v.loaded parent parentInode
            v.commitTx ok [.deleteInode de.ino, .deleteDirEntry parent name, .putInode parent parentInode.loses] ()

/-! Rename. -/

/-- Whether a directory would be moved below itself: `none` where the walk does not end. -/
def cycleCheck (v : Volume) : Option (Option VolumeError) :=
  if m.newParent = m.oldParent then some none
  else
    match isBelow m.childIno v.rootInodeID v.dirParents (v.dirParents.entries.length + 2) m.newParent with
    | none => none
    | some true => some (some .einval)
    | some false => some none

/-- Why the rename is refused: `none` where the cycle check does not end. -/
def refuses (v : Volume) : Option (Option VolumeError) :=
  match m.target with
  | none => if m.childInode.isDir then v.cycleCheck m else some none
  | some (targetIno, targetInode) =>
    if m.childInode.isDir then
      if targetInode.isDir = false then some (some .enotdir)
      else if v.isEmptyDir targetIno = false then some (some .enotempty)
      else v.cycleCheck m
    else if targetInode.isDir then some (some .eisdir)
    else some none

/-- What becomes of the target's inode. -/
def targetChange (ino : Nat) (row : Inode) (opened : Bool) : Change :=
  if row.isDir then .deleteInode ino
  else if row.unlinked.nlink = 0 ∧ opened = false then .deleteInode ino
  else .putInode ino row.unlinked

/-- The changes of the transaction, in the order of the source. -/
def renameChanges (v : Volume) : List Change :=
  let target := match m.target with
    | none => []
    | some (ino, row) =>
      [.deleteDirEntry m.newParent m.newName, targetChange ino row (v.hasOpenHandles ino)]
  [.deleteDirEntry m.oldParent m.oldName] ++ target ++
    [.putDirEntry m.newParent m.newName
      { ino := m.childIno, isDir := m.childInode.isDir, mode := m.childInode.mode }] ++ m.moved

/-- `dirParents` is changed before the transaction, and stays so if that fails. -/
def renameParents (v : Volume) : Volume :=
  let parents := if m.between then v.dirParents.insert m.childIno m.newParent else v.dirParents
  let parents := match m.target with
    | some (ino, row) => if row.isDir then parents.erase ino else parents
    | none => parents
  { v with dirParents := parents }

/-- `Rename` once everything is read. -/
def renameTo (ok : Bool) (m : Renaming) (v : Volume) : Option (Volume × Except VolumeError Unit) :=
  match v.refuses m with
  | none => none
  | some (some err) => some (v, .error err)
  | some none => some ((v.renameParents m).commitTx ok (v.renameChanges m) ())

/-- What `Rename` reads before it decides. -/
def renameRead (oldParent : Nat) (oldName : Name) (newParent : Nat) (newName : Name) (v : Volume) :
    Volume × Except VolumeError Renaming :=
  if oldName.length > maxNameLength ∨ newName.length > maxNameLength then (v, .error .enametoolong)
  else if invalidName oldName ∨ invalidName newName then (v, .error .einval)
  else
    let oldParent := v.normalizeInodeID oldParent
    let newParent := v.normalizeInodeID newParent
    match v.dirEntries.lookup (oldParent, oldName), v.inodes.lookup newParent with
    | none, _ | _, none => (v, .error .enoent)
    | some oldDe, some newParentInode =>
      let v := v.loaded newParent newParentInode
      if newParentInode.isDir = false then (v, .error .enotdir)
      else
        match v.inodes.lookup oldDe.ino with
        | none => (v, .error .enoent)
        | some childInode =>
          let v := v.loaded oldDe.ino childInode
          match v.inodes.lookup oldParent with
          | none => (v, .error .enoent)
          | some oldParentInode =>
            let v := v.loaded oldParent oldParentInode
            let m : Renaming :=
              { oldParent, oldName, newParent, newName, childIno := oldDe.ino, childInode, oldParentInode,
                newParentInode, target := none }
            match v.dirEntries.lookup (newParent, newName) with
            | none => (v, .ok m)
            | some targetDe =>
              match v.inodes.lookup targetDe.ino with
              | none => (v, .error .enoent)
              | some targetInode =>
                (v.loaded targetDe.ino targetInode, .ok { m with target := some (targetDe.ino, targetInode) })

def rename (ok : Bool) (oldParent : Nat) (oldName : Name) (newParent : Nat) (newName : Name) (v : Volume) :
    Option (Volume × Except VolumeError Unit) :=
  match v.renameRead oldParent oldName newParent newName with
  | (v, .error err) => some (v, .error err)
  | (v, .ok m) => v.renameTo ok m

/-! Calls. -/

/-- The volume after a call, and whether it has succeeded; `ok` says whether its
transaction can be committed. -/
def serve (ok : Bool) (v : Volume) : NamespaceCall → Option (Volume × Except VolumeError Unit)
  | .mkdir parent name mode => some ((v.mkdir ok parent name mode).map id (Except.map fun _ => ()))
  | .createFile parent name mode =>
    some ((v.createFile ok parent name mode).map id (Except.map fun _ => ()))
  | .symlink parent name => some ((v.symlink ok parent name).map id (Except.map fun _ => ()))
  | .link oldInodeID newParent newName =>
    some ((v.link ok oldInodeID newParent newName).map id (Except.map fun _ => ()))
  | .unlink parent name => some (v.unlink ok parent name)
  | .rmdir parent name => some (v.rmdir ok parent name)
  | .rename oldParent oldName newParent newName => v.rename ok oldParent oldName newParent newName

/-! Handles. -/

def allocFh (inodeID : Nat) (v : Volume) : Volume × Nat :=
  let ino := v.normalizeInodeID inodeID
  let fh := v.nextFh + 1
  ({ v with
      nextFh := fh
      handles := v.handles.insert fh ino
      openInodes := v.openInodes.insert ino ((v.openInodes.lookup ino).getD 0 + 1) },
    fh)

/-- Forget the handle; the inode it was for. -/
def takeHandle (inodeID fh : Nat) (v : Volume) : Volume × Nat :=
  match v.handles.lookup fh with
  | some ino => if fh ≠ 0 then ({ v with handles := v.handles.erase fh }, ino) else (v, inodeID)
  | none => (v, inodeID)

/-- With the last handle, the inode of a file without links is deleted. -/
def release (inodeID fh : Nat) (v : Volume) : Volume :=
  let taken := v.takeHandle (v.normalizeInodeID inodeID) fh
  let v := taken.1
  let ino := taken.2
  let count := (v.openInodes.lookup ino).getD 0
  if count > 1 then { v with openInodes := v.openInodes.insert ino (count - 1) }
  else
    let v := { v with openInodes := v.openInodes.erase ino }
    match v.inodes.lookup ino with
    | none => v
    | some node =>
      let v := v.loaded ino node
      if node.isDir = false ∧ node.nlink = 0 then v.commit [.deleteInode ino] else v

/-- A new volume. -/
def init (closeToOpen requirePermanent : Bool) : Volume :=
  { closeToOpen
    inodes := AList.singleton 1 { isDir := true, mode := 0o755 ||| sIfdir, nlink := 2 }
    dirParents := AList.singleton 1 1
    staging := { requirePermanent } }

end Volume

end InClusterStorage.Controller
