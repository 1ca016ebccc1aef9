import Mathlib.Data.List.Sort
import InClusterStorage.Lib.Bytes
import InClusterStorage.Daemon.Layers

/- The scan of a checkpoint (`checkpoint.go`): `ScanUpperLayer` compares the two layers and
   makes a list of operations for the controller. What `UpdateCheckpointManifest` has recorded
   of earlier checkpoints makes it incremental.

   No layer changes during a scan. Without a manifest is the same as with an empty one. The
   digests of attribute values are modelled by the values. The walks visit the entries of a
   layer in the order of the table; that order only matters for operations of one path, and
   these come from one visit. `sort.Slice` is not stable: deletions and creations of the same
   depth may come in any order (`IsScan`).

   `Lstat` of a path below a symbolic link of a layer follows the link. What it finds there is
   given by `Links`. -/
namespace InClusterStorage.Daemon

open Bytes List

inductive FileOp where
  | mkdir (path : Path) (mode uid gid : Nat)
  | createFile (path : Path) (mode uid gid : Nat) (data : List UInt8)
  | writeFile (path : Path) (offset : Nat) (data : List UInt8)
  | truncateFile (path : Path) (size : Nat)
  | symlink (path : Path) (target : String) (uid gid : Nat)
  | unlink (path : Path)
  | rmdir (path : Path)
  | setAttr (path : Path) (mode mtime uid gid : Nat)
  | setXAttr (path : Path) (name : String) (value : List UInt8)
  | removeXAttr (path : Path) (name : String)
  deriving DecidableEq, Repr

def FileOp.path : FileOp → Path
  | mkdir p _ _ _ | createFile p _ _ _ _ | writeFile p _ _ | truncateFile p _ | symlink p _ _ _
  | unlink p | rmdir p | setAttr p _ _ _ _ | setXAttr p _ _ | removeXAttr p _ => p

structure ManifestEntry where
  size : Nat := 0
  mtime : Nat := 0
  xattrs : AList fun _ : String => List UInt8 := ∅

structure CheckpointManifest where
  files : AList fun _ : Path => ManifestEntry := ∅
  whiteouts : List Path := []
  opaqueDirs : List Path := []

/-- What `Lstat` finds below symbolic links: of `lower`, and whether there is nothing in
`upper`. -/
structure Links where
  lower : Path → Option LocalEntry
  upperGone : Path → Bool

def LocalEntry.isLink (e : LocalEntry) : Bool :=
  match e.kind with
  | .symlink _ => true
  | _ => false

/-- `Lstat` in `lower`. -/
def lstat (links : Links) (lower : Layer) (p : Path) : Option LocalEntry :=
  match lower.lookup p with
  | some e => some e
  | none => if anyAbove (fun a => (lower.lookup a).any LocalEntry.isLink) p then links.lower p else none

/-- `Lstat` in `upper` fails with `ENOENT`; below a file or a whiteout it is `ENOTDIR`. -/
def upperGone (links : Links) (upper : UpperLayer) (p : Path) : Bool :=
  let above (test : UpperEntry → Bool) := anyAbove (fun a => (upper.lookup a).any test) p
  if (upper.lookup p).isSome then false
  else if above fun | .entry e _ => e.isLink | .whiteout => false then links.upperGone p
  else !above fun | .entry e _ => !e.isDir | .whiteout => true

/-! Deletions. -/

/-- `deletedInLower`, and the deletions so far. -/
structure Deletions where
  deleted : List Path := []
  ops : List FileOp := []

def Deletions.add (d : Deletions) (op : FileOp) : Deletions :=
  if op.path ∈ d.deleted then d else { deleted := op.path :: d.deleted, ops := d.ops ++ [op] }

/-- The operations that delete some entries of `lower`, files first. -/
def removals (lower : Layer) (which : Path → Bool) : List FileOp :=
  let found := lower.entries.filter fun e => which e.1
  (found.filter fun e => !e.2.isDir).map (fun e => .unlink e.1) ++
    (found.filter fun e => e.2.isDir).map fun e => .rmdir e.1

section
variable (links : Links) (lower : Layer) (upper : UpperLayer) (manifest : CheckpointManifest)

def wanted (u : (_ : Path) × UpperEntry) : List FileOp :=
  match u.2 with
  | .whiteout =>
    match lstat links lower u.1 with
    | some l =>
      if l.isDir then removals lower (fun q => u.1.isSuffixOf q) ++ [.rmdir u.1] else [.unlink u.1]
    | none => [.unlink u.1]
  | .entry e hides =>
    if e.isDir && hides && u.1 ∉ manifest.opaqueDirs then
      removals lower fun q => u.1.isSuffixOf q && q ≠ u.1 && upperGone links upper q
    else []

/-- One entry of the walk. A whiteout that is in the manifest is committed already. -/
def scanDeletion (d : Deletions) (u : (_ : Path) × UpperEntry) : Deletions :=
  match u.1, u.2 with
  | [], _ => d
  | name :: parent, .whiteout =>
    if (name :: parent) ∈ manifest.whiteouts then { d with deleted := (name :: parent) :: d.deleted }
    else (wanted links lower upper manifest u).foldl Deletions.add d
  | _ :: _, .entry _ _ => (wanted links lower upper manifest u).foldl Deletions.add d

def scanWhiteoutsAndOpaqueDirs : Deletions := upper.entries.foldl (scanDeletion links lower upper manifest) {}

end

/-! Creations and modifications. -/

/-- `scanXAttrs`, with the attributes to compare with. -/
def scanXAttrs (p : Path) (upperXattrs baseline : AList fun _ : String => List UInt8) : List FileOp :=
  (upperXattrs.entries.filter fun x => baseline.lookup x.1 ≠ some x.2).map (fun x => .setXAttr p x.1 x.2) ++
    (baseline.entries.filter fun x => upperXattrs.lookup x.1 = none).map fun x => .removeXAttr p x.1

@[irreducible] def readSize : Nat := 64 * 1024

/-- The rest of a file, in pieces. -/
def writesFrom (p : Path) (offset : Nat) (data : List UInt8) : List FileOp :=
  (range ((data.length + readSize - 1) / readSize)).map fun k =>
    .writeFile p (offset + k * readSize) (slice data (k * readSize) (k * readSize + readSize))

/-- `info.Mode() & 07777`: in Go the bits above 0777 are not where they are in `st_mode`. -/
def goMode (mode : Nat) : Nat := mode % 0o1000

def LocalEntry.setAttr (p : Path) (e : LocalEntry) : FileOp := .setAttr p (goMode e.mode) e.mtime e.uid e.gid

structure Modifications where
  creations : List FileOp := []
  writes : List FileOp := []
  attrs : List FileOp := []

/-- The attributes an entry is compared with. -/
def baselineOf (prevEntry : Option ManifestEntry) (existing : Option LocalEntry) : AList fun _ : String => List UInt8 :=
  match prevEntry, existing with
  | some prev, _ => prev.xattrs
  | none, some l => l.ownXattrs
  | none, none => ∅

/-- The removal that comes before the creation of something else. -/
def replaces (p : Path) : Option LocalEntry → List FileOp
  | some l => [if l.isDir then .rmdir p else .unlink p]
  | none => []

/-- A file that is in the manifest. -/
def scanCommitted (p : Path) (e : LocalEntry) (content : List UInt8) (lStat : Option LocalEntry) (prev : ManifestEntry) :
    Modifications :=
  let creations : List FileOp := if lStat.any LocalEntry.isDir then [.rmdir p] else []
  let xattrOps := scanXAttrs p e.ownXattrs prev.xattrs
  if content.length = prev.size ∧ e.mtime = prev.mtime then
    { creations, attrs := if xattrOps = [] then [] else e.setAttr p :: xattrOps }
  else
    { creations
      writes :=
        if prev.size < content.length then writesFrom p prev.size (content.drop prev.size)
        else (if content.length ≠ prev.size then [.truncateFile p content.length] else []) ++ writesFrom p 0 content
      attrs := e.setAttr p :: xattrOps }

/-- A file that `lower` does not have, or has a directory instead. -/
def scanNewFile (p : Path) (e : LocalEntry) (content : List UInt8) (existing : Option LocalEntry) : Modifications where
  creations := replaces p existing ++ [.createFile p (goMode e.mode) e.uid e.gid (content.take readSize)]
  writes := writesFrom p readSize (content.drop readSize)
  attrs := e.setAttr p :: scanXAttrs p e.ownXattrs (baselineOf none existing)

/-- A file that `lower` has too. -/
def scanModified (p : Path) (e : LocalEntry) (content : List UInt8) (l : LocalEntry) : Modifications :=
  let xattrOps := scanXAttrs p e.ownXattrs l.ownXattrs
  if l.size = content.length ∧ l.mtime = e.mtime then { attrs := if xattrOps = [] then [] else e.setAttr p :: xattrOps }
  else
    { writes := (if l.size ≠ content.length then [.truncateFile p content.length] else []) ++ writesFrom p 0 content
      attrs := e.setAttr p :: xattrOps }

def scanEntry (p : Path) (e : LocalEntry) (lStat existing : Option LocalEntry) (prevEntry : Option ManifestEntry) :
    Modifications :=
  match e.kind with
  | .dir =>
    { creations := if existing = none ∧ prevEntry = none then [.mkdir p (goMode e.mode) e.uid e.gid] else []
      attrs := e.setAttr p :: scanXAttrs p e.ownXattrs (baselineOf prevEntry existing) }
  | .symlink target =>
    { creations := if prevEntry = none then replaces p existing ++ [.symlink p target e.uid e.gid] else []
      attrs := scanXAttrs p e.ownXattrs (baselineOf prevEntry existing) }
  | .file content =>
    match prevEntry with
    | some prev => scanCommitted p e content lStat prev
    | none =>
      match existing with
      | none => scanNewFile p e content none
      | some l => if l.isDir then scanNewFile p e content (some l) else scanModified p e content l

/-- The operations of one entry of `upper`. -/
def modificationsOf (links : Links) (lower : Layer) (deleted : List Path) (manifest : CheckpointManifest)
    (u : (_ : Path) × UpperEntry) : Modifications :=
  match u.1, u.2 with
  | [], _ => {}
  | _, .whiteout => {}
  | name :: parent, .entry e _ =>
    let p := name :: parent
    let lStat := lstat links lower p
    scanEntry p e lStat (if p ∈ deleted then none else lStat) (manifest.files.lookup p)

/-! The whole scan. -/

section
variable (links : Links) (lower : Layer) (upper : UpperLayer) (manifest : CheckpointManifest)

def deletions : List FileOp := (scanWhiteoutsAndOpaqueDirs links lower upper manifest).ops

/-- `scanModificationsAndCreations`, entry by entry. -/
def modifications : List Modifications :=
  upper.entries.map (modificationsOf links lower (scanWhiteoutsAndOpaqueDirs links lower upper manifest).deleted manifest)

def creations : List FileOp := (modifications links lower upper manifest).flatMap Modifications.creations

def writes : List FileOp := (modifications links lower upper manifest).flatMap Modifications.writes

def attrs : List FileOp := (modifications links lower upper manifest).flatMap Modifications.attrs

/-- Deeper paths first; `sort.SliceStable`. -/
def sortedAttrs : List FileOp :=
  (attrs links lower upper manifest).insertionSort fun a b => b.path.length ≤ a.path.length

/-- A list that `ScanUpperLayer` may return. -/
def IsScan (ops : List FileOp) : Prop :=
  ∃ dels crs, dels.Perm (deletions links lower upper manifest) ∧
    dels.Pairwise (fun a b => b.path.length ≤ a.path.length) ∧
    crs.Perm (creations links lower upper manifest) ∧
    crs.Pairwise (fun a b => a.path.length ≤ b.path.length) ∧
    ops = dels ++ crs ++ writes links lower upper manifest ++ sortedAttrs links lower upper manifest

/-- The list with sorts that keep the order of the walk. -/
def scanUpperLayer : List FileOp :=
  (deletions links lower upper manifest).insertionSort (fun a b => b.path.length ≤ a.path.length) ++
    (creations links lower upper manifest).insertionSort (fun a b => a.path.length ≤ b.path.length) ++
    writes links lower upper manifest ++ sortedAttrs links lower upper manifest

end

theorem isScan_scanUpperLayer (links : Links) (lower : Layer) (upper : UpperLayer) (manifest : CheckpointManifest) :
    IsScan links lower upper manifest (scanUpperLayer links lower upper manifest) := by
  have hdeep : Std.Total fun a b : FileOp => b.path.length ≤ a.path.length := ⟨fun a b => le_total _ _⟩
  have hdeep' : IsTrans FileOp fun a b => b.path.length ≤ a.path.length := ⟨fun a b c hab hbc => hbc.trans hab⟩
  have hflat : Std.Total fun a b : FileOp => a.path.length ≤ b.path.length := ⟨fun a b => le_total _ _⟩
  have hflat' : IsTrans FileOp fun a b => a.path.length ≤ b.path.length := ⟨fun a b c => le_trans⟩
  exact ⟨_, _, perm_insertionSort _ _, pairwise_insertionSort _ _, perm_insertionSort _ _,
    pairwise_insertionSort _ _, rfl⟩

end InClusterStorage.Daemon
