import InClusterStorage.Lib.Table
import InClusterStorage.Controller.Namespace

/- What the namespace calls do to the rows. Every call either leaves the rows as they
   are, whatever it returns, or has one of the effects of `Effect`, with all that it
   has read and checked: `serve_outcome`. The proofs about whole histories start from
   here and do not look into the calls. -/
namespace InClusterStorage.Controller

open Table Renaming

namespace Volume

variable {v v' w : Volume}

/-! Frames. -/

/-- What no namespace call changes; numbers are only ever handed out upwards. -/
structure Framed (v v' : Volume) : Prop where
  closeToOpen : v'.closeToOpen = v.closeToOpen
  rootInodeID : v'.rootInodeID = v.rootInodeID
  handles : v'.handles = v.handles
  openInodes : v'.openInodes = v.openInodes
  nextFh : v'.nextFh = v.nextFh
  nextInode : v.nextInode ≤ v'.nextInode

theorem Framed.refl (v : Volume) : Framed v v := ⟨rfl, rfl, rfl, rfl, rfl, le_rfl⟩

theorem Framed.trans (h : Framed v v') (h' : Framed v' w) : Framed v w where
  closeToOpen := h'.closeToOpen.trans h.closeToOpen
  rootInodeID := h'.rootInodeID.trans h.rootInodeID
  handles := h'.handles.trans h.handles
  openInodes := h'.openInodes.trans h.openInodes
  nextFh := h'.nextFh.trans h.nextFh
  nextInode := le_trans h.nextInode h'.nextInode

theorem Framed.hasOpenHandles (h : Framed v v') (ino : Nat) : v'.hasOpenHandles ino = v.hasOpenHandles ino := by
  simp only [Volume.hasOpenHandles, h.openInodes]

theorem Framed.normalizeInodeID (h : Framed v v') (id : Nat) : v'.normalizeInodeID id = v.normalizeInodeID id := by
  simp only [Volume.normalizeInodeID, h.rootInodeID]

/-- Nothing has changed but `dirParents`. -/
structure SameRows (v v' : Volume) : Prop extends Framed v v' where
  sameNext : v'.nextInode = v.nextInode
  inodes : v'.inodes = v.inodes
  dirEntries : v'.dirEntries = v.dirEntries
  staging : v'.staging = v.staging

theorem SameRows.refl (v : Volume) : SameRows v v := ⟨.refl v, rfl, rfl, rfl, rfl⟩

theorem SameRows.loaded (h : SameRows v v') (ino : Nat) (row : Inode) : SameRows v (v'.loaded ino row) := by
  unfold Volume.loaded
  split
  · exact { h with }
  · exact h

/-- Some directories were loaded: what is new in `dirParents` are parents that stand in
the rows. -/
structure Loads (v v' : Volume) : Prop extends SameRows v v' where
  parents : ∀ d, v'.dirParents.lookup d = v.dirParents.lookup d ∨
    ∃ row, v.inodes.lookup d = some row ∧ v'.dirParents.lookup d = some row.parentIno

theorem Loads.refl (v : Volume) : Loads v v := ⟨.refl v, fun _ => .inl rfl⟩

theorem Loads.loaded {ino : Nat} {row : Inode} (h : Loads v v') (hrow : v.inodes.lookup ino = some row) :
    Loads v (v'.loaded ino row) := by
  refine ⟨h.toSameRows.loaded ino row, fun d => ?_⟩
  unfold Volume.loaded
  split
  case isFalse => exact h.parents d
  by_cases hd : d = ino
  · subst hd
    exact .inr ⟨row, hrow, AList.lookup_insert _⟩
  · show (v'.dirParents.insert ino row.parentIno).lookup d = _ ∨ _
    rw [AList.lookup_insert_ne hd]
    exact h.parents d

theorem loaded_dirParents {ino : Nat} {row : Inode} (hdir : row.isDir = true) (hp : row.parentIno ≠ 0) :
    (v.loaded ino row).dirParents.lookup ino = some row.parentIno := by
  simp [loaded, hdir, hp]

@[simp] theorem commit_nil : v.commit [] = v := rfl

@[simp] theorem commit_cons (c : Change) (changes : List Change) :
    v.commit (c :: changes) = (v.apply c).commit changes := rfl

theorem apply_framed (c : Change) : Framed v (v.apply c) := by
  cases c <;> exact ⟨rfl, rfl, rfl, rfl, rfl, le_rfl⟩

theorem commit_framed (changes : List Change) : ∀ v : Volume, Framed v (v.commit changes) := by
  induction changes with
  | nil => exact Framed.refl
  | cons c changes ih => exact fun v => (apply_framed c).trans (ih _)

theorem commit_staging (changes : List Change) : ∀ v : Volume, (v.commit changes).staging = v.staging := by
  induction changes with
  | nil => exact fun _ => rfl
  | cons c changes ih => intro v; rw [commit_cons, ih]; cases c <;> rfl

end Volume

/-! Effects. -/

def Inode.Fresh (child : Inode) (parent : Nat) : Prop :=
  child.isDir = false ∧ child.nlink = 1 ∨ child.isDir = true ∧ child.nlink = 2 ∧ child.parentIno = parent

namespace Renaming

variable {m : Renaming} {v w : Volume}

/-- The rename has read its rows in `v`. -/
structure Reads (m : Renaming) (v : Volume) : Prop where
  oldEntry : ∃ de, v.dirEntries.lookup (m.oldParent, m.oldName) = some de ∧ de.ino = m.childIno
  child : v.inodes.lookup m.childIno = some m.childInode
  oldParent : v.inodes.lookup m.oldParent = some m.oldParentInode
  newParent : v.inodes.lookup m.newParent = some m.newParentInode
  newParentDir : m.newParentInode.isDir = true
  noTarget : m.target = none → v.dirEntries.lookup (m.newParent, m.newName) = none
  target : ∀ ino row, m.target = some (ino, row) →
    (∃ de, v.dirEntries.lookup (m.newParent, m.newName) = some de ∧ de.ino = ino) ∧ v.inodes.lookup ino = some row

/-- The rename has passed its checks in `w`. -/
structure Accepted (m : Renaming) (w : Volume) : Prop where
  kind : ∀ ino row, m.target = some (ino, row) → row.isDir = m.childInode.isDir
  empty : ∀ ino row, m.target = some (ino, row) → row.isDir = true → w.isEmptyDir ino = true
  notBelow : m.between = true → ∃ fuel, isBelow m.childIno w.rootInodeID w.dirParents fuel m.newParent = some false
  loaded : m.newParentInode.parentIno ≠ 0 → w.dirParents.lookup m.newParent = some m.newParentInode.parentIno

/-- The target loses its last link, and no handle keeps its inode. -/
def deletes (row : Inode) (opened : Bool) : Bool :=
  row.isDir || (decide (row.unlinked.nlink = 0) && !opened)

/-- The inode rows without the link that the target loses; `opened` tells which inodes
are open. -/
def withoutTarget (m : Renaming) (opened : Nat → Bool) (inodes : AList fun _ : Nat => Inode) :
    AList fun _ : Nat => Inode :=
  match m.target with
  | none => inodes
  | some (ino, row) => if deletes row (opened ino) then inodes.erase ino else inodes.insert ino row.unlinked

def inodesAfter (m : Renaming) (opened : Nat → Bool) (inodes : AList fun _ : Nat => Inode) : AList fun _ : Nat => Inode :=
  let inodes := ((m.withoutTarget opened inodes).insert m.childIno m.childAfter).insert m.oldParent m.oldParentAfter
  if m.newParent ≠ m.oldParent then inodes.insert m.newParent m.newParentAfter else inodes

def entry (m : Renaming) : DirEntry :=
  { ino := m.childIno, isDir := m.childInode.isDir, mode := m.childInode.mode }

end Renaming

/-- The second section of `Unlink` removes the entry `de` and a link of `ino`. -/
structure Unlinks (v v' : Volume) (parent : Nat) (name : Name) (de : DirEntry) (ino : Nat)
    (row parentInode : Inode) : Prop where
  entry : v.dirEntries.lookup (parent, name) = some de
  child : v.inodes.lookup ino = some row
  parentRow : v.inodes.lookup parent = some parentInode
  inodes : v'.inodes = (if row.unlinked.nlink = 0 ∧ v.hasOpenHandles ino = false
    then v.inodes.erase ino else v.inodes.insert ino row.unlinked).insert parent parentInode
  dirEntries : v'.dirEntries = v.dirEntries.erase (parent, name)

/-- The rename has read `m` in `v` and checked it in `w`, where some directories of `v`
are loaded, and has committed it. -/
structure Renames (v v' : Volume) (m : Renaming) (w : Volume) : Prop where
  loads : v.Loads w
  reads : m.Reads v
  accepted : m.Accepted w
  inodes : v'.inodes = m.inodesAfter v.hasOpenHandles v.inodes
  dirEntries : v'.dirEntries = (v.dirEntries.erase (m.oldParent, m.oldName)).insert (m.newParent, m.newName) m.entry
  staging : v'.staging = v.staging

/-- What a call has done that others may not bear. -/
inductive Done where
  | plain
  | linked (ino : Nat)
  /-- the directory is removed -/
  | removed (ino : Nat)
  | renamed (m : Renaming)
  deriving DecidableEq, Repr

def Done.ofLink : Except VolumeError Nat → Done
  | .ok ino => .linked ino
  | .error _ => .plain

def Done.ofRmdir : Option DirEntry → Except VolumeError Unit → Done
  | some de, .ok () => .removed de.ino
  | _, _ => .plain

def Done.ofRename : Option Renaming → Done
  | some m => .renamed m
  | none => .plain

inductive Effect (v v' : Volume) : Done → Prop where
  | none (inodes : v'.inodes = v.inodes) (dirEntries : v'.dirEntries = v.dirEntries)
      (staging : v'.staging = v.staging ∨ ∃ ino, v'.staging = v.staging.dropStagedChunksLocked ino) :
      Effect v v' .plain
  /-- `Mkdir`, `Symlink`, and `CreateFile` of a new file -/
  | added (parent : Nat) (name : Name) (parentInode child : Inode)
      (hparent : v.inodes.lookup parent = some parentInode) (hdir : parentInode.isDir = true)
      (hfree : v.dirEntries.lookup (parent, name) = Option.none) (hchild : child.Fresh parent)
      (hnext : v.nextInode < v'.nextInode)
      (inodes : v'.inodes = (v.inodes.insert v.nextInode child).insert parent (parentInode.gains child.isDir))
      (dirEntries : v'.dirEntries = v.dirEntries.insert (parent, name)
        { ino := v.nextInode, isDir := child.isDir, mode := child.mode })
      (staging : v'.staging = v.staging) : Effect v v' .plain
  /-- `CreateFile` of an existing file -/
  | rewritten (parent ino mode : Nat) (parentInode childInode : Inode)
      (hparent : v.inodes.lookup parent = some parentInode) (hdir : parentInode.isDir = true)
      (hino : v.inodes.lookup ino = some childInode) (hfile : childInode.isDir = false)
      (inodes : v'.inodes = (v.inodes.insert ino { childInode with mode := mode }).insert parent parentInode)
      (dirEntries : v'.dirEntries = v.dirEntries)
      (staging : v'.staging = v.staging) : Effect v v' .plain
  | linked (ino parent : Nat) (name : Name) (row parentInode : Inode)
      (hino : v.inodes.lookup ino = some row) (hfile : row.isDir = false)
      (hparent : v.inodes.lookup parent = some parentInode) (hdir : parentInode.isDir = true)
      (hfree : v.dirEntries.lookup (parent, name) = Option.none)
      (inodes : v'.inodes = (v.inodes.insert ino row.linked).insert parent parentInode)
      (dirEntries : v'.dirEntries = v.dirEntries.insert (parent, name) { ino, isDir := false, mode := row.mode })
      (staging : v'.staging = v.staging) : Effect v v' (.linked ino)
  | unlinked (parent : Nat) (name : Name) (de : DirEntry) (row parentInode : Inode)
      (unlinks : Unlinks v v' parent name de de.ino row parentInode) (hfile : row.isDir = false)
      (staging : v'.staging = v.staging.dropStagedChunksLocked de.ino) : Effect v v' .plain
  | removed (parent : Nat) (name : Name) (de : DirEntry) (row parentInode : Inode)
      (hentry : v.dirEntries.lookup (parent, name) = some de)
      (hino : v.inodes.lookup de.ino = some row) (hdir : row.isDir = true)
      (hempty : v.isEmptyDir de.ino = true)
      (hparent : v.inodes.lookup parent = some parentInode)
      (inodes : v'.inodes = (v.inodes.erase de.ino).insert parent parentInode.loses)
      (dirEntries : v'.dirEntries = v.dirEntries.erase (parent, name))
      (staging : v'.staging = v.staging) : Effect v v' (.removed de.ino)
  | renamed (m : Renaming) (w : Volume) (renames : Renames v v' m w) : Effect v v' (.renamed m)

/-! The effect of each call. -/

/-- The outcome of a call that has done `d`. -/
structure Outcome (v v' : Volume) (d : Done) : Prop extends v.Framed v' where
  effect : Effect v v' d

/-- What a call returns, with the volume after it. -/
abbrev Reply (α : Type) : Type := Volume × Except VolumeError α

/-- Of the inodes, `new` is there now and those of `gone` are not. -/
def InodesAfter (v v' : Volume) (new : Option Nat) (gone : Nat → Prop) : Prop :=
  ∀ i, (∃ row, v'.inodes.lookup i = some row) ↔ some i = new ∨ (∃ row, v.inodes.lookup i = some row) ∧ ¬ gone i

abbrev KeepsInodes (v v' : Volume) : Prop := InodesAfter v v' none fun _ => False

abbrev AddsInode (v v' : Volume) : Prop := InodesAfter v v' (some v.nextInode) fun _ => False

/-- The outcome of a call with its result: `P` holds where it succeeds, and a call that fails
has left the inodes as they were. -/
structure Answered {α : Type} (v : Volume) (r : Reply α) (d : Done) (P : α → Prop) : Prop where
  outcome : Outcome v r.1 d
  failed : ∀ err, r.2 = .error err → d = .plain ∧ r.1.inodes = v.inodes
  done : ∀ a, r.2 = .ok a → P a

section Answers

variable {α : Type} {v w : Volume} {d : Done} {P : α → Prop}

theorem Answered.of_ok {a : α} (hout : Outcome v w d) (ha : P a) : Answered v (w, .ok a) d P :=
  ⟨hout, nofun, fun _ h => Except.ok.inj h ▸ ha⟩

theorem Answered.map {β : Type} {r : Reply α} (h : Answered v r d P) (f : α → β) :
    Answered v (r.map id (Except.map f)) d fun _ => True := by
  obtain ⟨w, result⟩ := r
  cases result with
  | error err => exact ⟨h.outcome, fun _ _ => h.failed err rfl, fun _ _ => trivial⟩
  | ok a => exact .of_ok h.outcome trivial

end Answers

namespace Volume

variable {v v' w : Volume} {α : Type} {P : α → Prop} {err : VolumeError} {ino : Nat}

theorem SameRows.refused (h : v.SameRows w) : Answered v (w, .error err) .plain P :=
  ⟨⟨h.toFramed, .none h.inodes h.dirEntries (.inl h.staging)⟩, fun _ _ => ⟨rfl, h.inodes⟩, nofun⟩

theorem refused : Answered v (v, .error err) .plain P := (SameRows.refl v).refused

theorem SameRows.failed (h : v.SameRows w) (parents : AList fun _ : Nat => Nat) {n : Nat} (hn : w.nextInode ≤ n) :
    Answered v ({ w with nextInode := n, dirParents := parents }, .error err) .plain P :=
  ⟨⟨{ h.toFramed with nextInode := le_trans h.nextInode hn }, .none h.inodes h.dirEntries (.inl h.staging)⟩,
    fun _ _ => ⟨rfl, h.inodes⟩, nofun⟩

theorem commit_inodes (changes : List Change) :
    ∀ {v w : Volume}, w.inodes = v.inodes → (w.commit changes).inodes = (v.commit changes).inodes := by
  induction changes with
  | nil => exact id
  | cons c changes ih => exact fun h => ih (by cases c <;> simp [apply, h])

variable {name : Name} {parent : Nat} {ok : Bool}

theorem exists_lookup_insert_iff {inodes : AList fun _ : Nat => Inode} {i : Nat} {row row' : Inode}
    (h : inodes.lookup ino = some row) :
    (∃ r, (inodes.insert ino row').lookup i = some r) ↔ ∃ r, inodes.lookup i = some r := by
  rw [lookup_insert]
  split_ifs with heq
  · subst heq
    exact iff_of_true ⟨row', rfl⟩ ⟨row, h⟩
  · exact Iff.rfl

theorem inodesAfter_of_same (h : v'.inodes = v.inodes) : KeepsInodes v v' := by
  intro i
  rw [h]
  simp

theorem lookup_written {row row' : Inode} (h : v'.inodes = (v.inodes.insert ino row).insert parent row')
    (hne : ino ≠ parent) : v'.inodes.lookup ino = some row := by
  rw [h, lookup_insert, if_neg hne, lookup_insert, if_pos rfl]

theorem inodesAfter_written {row row' parentInode : Inode} (hino : v.inodes.lookup ino = some row)
    (hparent : v.inodes.lookup parent = some parentInode)
    (h : v'.inodes = (v.inodes.insert ino row').insert parent parentInode) : KeepsInodes v v' := by
  intro i
  obtain ⟨r, hr⟩ : ∃ r, (v.inodes.insert ino row').lookup parent = some r :=
    exists_lookup_insert _ _ ⟨parentInode, hparent⟩
  rw [h, exists_lookup_insert_iff hr, exists_lookup_insert_iff hino]
  simp

theorem SameRows.addition_inodes (h : v.SameRows w) (parent : Nat) (name : Name) (parentInode child : Inode)
    (parents : AList fun _ : Nat => Nat) (n : Nat) :
    ({ w with nextInode := n, dirParents := parents }.commit (addition parent parentInode name w.nextInode child)).inodes =
      (v.inodes.insert v.nextInode child).insert parent (parentInode.gains child.isDir) := by
  simp only [addition, commit_cons, commit_nil, apply, h.inodes, h.sameNext]

theorem inodesAfter_added {row row' child : Inode} (hparent : v.inodes.lookup parent = some row)
    (h : v'.inodes = (v.inodes.insert v.nextInode child).insert parent row') : AddsInode v v' := by
  intro i
  obtain ⟨r, hr⟩ : ∃ r, (v.inodes.insert v.nextInode child).lookup parent = some r :=
    exists_lookup_insert _ _ ⟨row, hparent⟩
  rw [h, exists_lookup_insert_iff hr, lookup_insert]
  by_cases hi : i = v.nextInode <;> simp [hi]

theorem SameRows.added (h : v.SameRows w) {parentInode child : Inode}
    (hparent : v.inodes.lookup parent = some parentInode) (hdir : parentInode.isDir = true)
    (hfree : w.dirEntries.lookup (parent, name) = none) (hchild : child.Fresh parent)
    (parents : AList fun _ : Nat => Nat) :
    Outcome v ({ w with nextInode := w.nextInode + 8, dirParents := parents }.commit
      (addition parent parentInode name w.nextInode child)) .plain := by
  have htaken : w.Framed { w with nextInode := w.nextInode + 8, dirParents := parents } :=
    ⟨rfl, rfl, rfl, rfl, rfl, Nat.le_add_right _ _⟩
  rw [h.dirEntries] at hfree
  refine ⟨(h.toFramed.trans htaken).trans (commit_framed _ _),
      .added parent name parentInode child hparent hdir hfree hchild
    ?_ (h.addition_inodes _ _ _ _ _ _) ?_ ?_⟩
  · show v.nextInode < w.nextInode + 8
    rw [h.sameNext]
    omega
  · simp only [addition, commit_cons, commit_nil, apply, h.dirEntries, h.sameNext]
  · rw [commit_staging]
    exact h.staging

theorem mkdir_answered {mode : Nat} {r : Reply Nat} (h : v.mkdir ok parent name mode = r) :
    Answered v r .plain fun _ => AddsInode v r.1 := by
  dsimp only [mkdir] at h
  split at h
  · exact h ▸ refused
  split at h
  · exact h ▸ refused
  rename_i parentInode hparent
  have hload := (SameRows.refl v).loaded (v.normalizeInodeID parent) parentInode
  split_ifs at h with hdir hfree
  · exact h ▸ hload.refused
  · exact h ▸ hload.refused
  · exact h ▸ .of_ok (hload.added hparent (by simpa using hdir) (by simpa using hfree) (.inr ⟨rfl, rfl, rfl⟩) _)
      (inodesAfter_added hparent (hload.addition_inodes _ _ _ _ _ _))
  · exact h ▸ hload.failed _ (Nat.le_add_right _ _)

theorem symlink_answered {r : Reply Nat} (h : v.symlink ok parent name = r) :
    Answered v r .plain fun _ => AddsInode v r.1 := by
  dsimp only [symlink] at h
  split at h
  · exact h ▸ refused
  split at h
  · exact h ▸ refused
  rename_i parentInode hparent
  have hload := (SameRows.refl v).loaded (v.normalizeInodeID parent) parentInode
  split_ifs at h with hdir hfree
  · exact h ▸ hload.refused
  · exact h ▸ hload.refused
  cases ok with
  | false => exact h ▸ hload.failed _ (Nat.le_add_right _ _)
  | true =>
    exact h ▸ .of_ok (hload.added hparent (by simpa using hdir) (by simpa using hfree) (.inl ⟨rfl, rfl⟩) _)
      (inodesAfter_added hparent (hload.addition_inodes _ _ _ _ _ _))

theorem createFile_answered {mode : Nat} {r : Reply Nat}
    (h : v.createFile ok parent name mode = r) :
    Answered v r .plain fun ino =>
      (v.inodes.lookup v.nextInode = none → ∃ row, r.1.inodes.lookup ino = some row ∧ row.isDir = false) ∧
        match v.dirEntries.lookup (v.normalizeInodeID parent, name) with
        | some de => ino = de.ino ∧ KeepsInodes v r.1
        | none => ino = v.nextInode ∧ AddsInode v r.1 := by
  dsimp only [createFile] at h
  split at h
  · exact h ▸ refused
  split at h
  · exact h ▸ refused
  rename_i parentInode hparent
  have hload := (SameRows.refl v).loaded (v.normalizeInodeID parent) parentInode
  split_ifs at h with hdir
  · exact h ▸ hload.refused
  have hdir : parentInode.isDir = true := by simpa using hdir
  split at h
  · exact h ▸ hload.refused
  rename_i mode' _
  split at h
  · -- the name exists
    rename_i de hentry
    rw [hload.dirEntries] at hentry
    split at h
    · exact h ▸ hload.refused
    rename_i childInode hino
    rw [hload.inodes] at hino
    have hload' := hload.loaded de.ino childInode
    split_ifs at h with hfile _
    · exact h ▸ hload'.refused
    · exact h ▸ hload'.refused
    cases ok with
    | false => exact h ▸ hload'.refused
    | true =>
      have hfile : childInode.isDir = false := by simpa using hfile
      have hinodes := commit_inodes
        [.putInode de.ino { childInode with mode := mode' }, .putInode (v.normalizeInodeID parent) parentInode]
          hload'.inodes
      have hne : de.ino ≠ v.normalizeInodeID parent := by
        intro heq
        cases (heq ▸ hino).symm.trans hparent
        simp [hdir] at hfile
      refine h ▸ .of_ok ⟨hload'.toFramed.trans (commit_framed _ _),
        .rewritten _ _ mode' parentInode childInode hparent hdir hino hfile hinodes ?_ ?_⟩ ⟨fun _ => ?_, ?_⟩
      · simp only [commit_cons, commit_nil, apply, hload'.dirEntries]
      · exact (commit_staging _ _).trans hload'.staging
      · exact ⟨_, lookup_written hinodes hne, hfile⟩
      · rw [hentry]
        exact ⟨rfl, inodesAfter_written hino hparent hinodes⟩
  · rename_i hfree
    cases ok with
    | false => exact h ▸ hload.failed _ (Nat.le_add_right _ _)
    | true =>
      have hinodes := hload.addition_inodes (v.normalizeInodeID parent) name parentInode
        { isDir := false, mode := mode', nlink := 1 } (v.loaded (v.normalizeInodeID parent) parentInode).dirParents
        ((v.loaded (v.normalizeInodeID parent) parentInode).nextInode + 8)
      refine h ▸ .of_ok (hload.added hparent hdir hfree (.inl ⟨rfl, rfl⟩) _) ⟨fun hnone => ?_, ?_⟩
      · have hne : v.nextInode ≠ v.normalizeInodeID parent := fun heq => nomatch (heq ▸ hnone).symm.trans hparent
        exact ⟨_, (congrArg (AList.lookup · _) hload.sameNext).trans (lookup_written hinodes hne), rfl⟩
      · rw [hload.dirEntries] at hfree
        rw [hfree]
        exact ⟨hload.sameNext, inodesAfter_added hparent hinodes⟩

theorem link_answered {oldInodeID newParent : Nat} {newName : Name}
    {r : Reply Nat} (h : v.link ok oldInodeID newParent newName = r) :
    Answered v r (.ofLink r.2) fun _ => KeepsInodes v r.1 := by
  dsimp only [link] at h
  split at h
  · exact h ▸ refused
  split at h
  · exact h ▸ refused
  rename_i row hino
  have hload := (SameRows.refl v).loaded (v.normalizeInodeID oldInodeID) row
  split_ifs at h with hfile
  · exact h ▸ hload.refused
  split at h
  · exact h ▸ hload.refused
  rename_i parentInode hparent
  rw [hload.inodes] at hparent
  have hload' := hload.loaded (v.normalizeInodeID newParent) parentInode
  split_ifs at h with hdir hfree
  · exact h ▸ hload'.refused
  · exact h ▸ hload'.refused
  rw [hload'.dirEntries] at hfree
  cases ok with
  | false => exact h ▸ hload'.refused
  | true =>
    have hinodes := commit_inodes [.putInode (v.normalizeInodeID oldInodeID) row.linked,
      .putDirEntry (v.normalizeInodeID newParent) newName
        { ino := v.normalizeInodeID oldInodeID, isDir := false, mode := row.mode },
      .putInode (v.normalizeInodeID newParent) parentInode] hload'.inodes
    refine h ▸ .of_ok ⟨hload'.toFramed.trans (commit_framed _ _), .linked _ _ newName row parentInode hino
      (by simpa using fun h => hfile (.inl h)) hparent (by simpa using hdir) (by simpa using hfree) hinodes ?_ ?_⟩
      (inodesAfter_written hino hparent hinodes)
    · simp only [commit_cons, commit_nil, apply, hload'.dirEntries]
    · exact (commit_staging _ _).trans hload'.staging

theorem unlinkResolve_loads (parent : Nat) (name : Name) (v : Volume) : v.SameRows (v.unlinkResolve parent name).1 := by
  dsimp only [unlinkResolve]
  split_ifs
  · exact .refl v
  split
  · exact .refl v
  split
  · exact .refl v
  split_ifs
  · exact (SameRows.refl v).loaded _ _
  · exact (SameRows.refl v).loaded _ _

theorem unlinkResolve_ok {ino : Nat}
    (h : (v.unlinkResolve parent name).2 = .ok ino) :
    ∃ de row, v.dirEntries.lookup (v.normalizeInodeID parent, name) = some de ∧ de.ino = ino ∧
      v.inodes.lookup ino = some row ∧ row.isDir = false := by
  dsimp only [unlinkResolve] at h
  split_ifs at h
  split at h
  · cases h
  rename_i de hentry
  split at h
  · cases h
  rename_i row hino
  split_ifs at h with hfile
  cases h
  exact ⟨de, row, hentry, rfl, hino, by simpa using hfile⟩

/-- The second section either fails or removes a link of `ino`, whatever inode the name
refers to by now. -/
theorem unlinkRemove_cases (ok : Bool) (parent : Nat) (name : Name) (ino : Nat) (v : Volume) :
    v.SameRows (v.unlinkRemove ok parent name ino).1 ∧
      (ok = true → ∀ de row, v.dirEntries.lookup (v.normalizeInodeID parent, name) = some de →
        v.inodes.lookup ino = some row → v.inodes.lookup (v.normalizeInodeID parent) = none) ∧
      (∃ err, (v.unlinkRemove ok parent name ino).2 = .error err) ∨
      (ok = true ∧ (v.unlinkRemove ok parent name ino).2 = .ok ()) ∧ v.Framed (v.unlinkRemove ok parent name ino).1 ∧
      (v.unlinkRemove ok parent name ino).1.staging = v.staging ∧
      ∃ de row parentInode, Unlinks v (v.unlinkRemove ok parent name ino).1 (v.normalizeInodeID parent) name
        de ino row parentInode := by
  dsimp only [unlinkRemove]
  split
  · rename_i hentry
    exact .inl ⟨.refl v, fun _ de _ hde => (nomatch hentry.symm.trans hde), _, rfl⟩
  rename_i de hentry
  split
  · rename_i hino
    exact .inl ⟨.refl v, fun _ _ row _ hrow => (nomatch hino.symm.trans hrow), _, rfl⟩
  rename_i row hino
  have hload := (SameRows.refl v).loaded ino row
  split
  · rename_i hparent
    exact .inl ⟨hload, fun _ _ _ _ _ => hload.inodes ▸ hparent, _, rfl⟩
  rename_i parentInode hparent
  rw [hload.inodes] at hparent
  have hload' := hload.loaded (v.normalizeInodeID parent) parentInode
  cases ok with
  | false => exact .inl ⟨hload', nofun, _, rfl⟩
  | true =>
    refine .inr ⟨⟨rfl, rfl⟩, hload'.toFramed.trans (commit_framed _ _), (commit_staging _ _).trans hload'.staging,
      de, row, parentInode, hentry, hino, hparent, ?_, ?_⟩
    · rw [hload'.hasOpenHandles]
      split_ifs <;> simp only [commitTx, if_true, commit_cons, commit_nil, apply, hload'.inodes]
    · split_ifs <;> simp only [commitTx, if_true, commit_cons, commit_nil, apply, hload'.dirEntries]

theorem SameRows.unlink_answered (h : v.SameRows w) {de : DirEntry} {row : Inode}
    (hentry : v.dirEntries.lookup (v.normalizeInodeID parent, name) = some de)
    (hrow : v.inodes.lookup de.ino = some row) (hfile : row.isDir = false) {r : Reply Unit}
    (hr : (w.unlinkDrop de.ino).unlinkRemove ok parent name de.ino = r) :
    Answered v r .plain fun _ => ∃ de row parentInode,
      Unlinks v r.1 (v.normalizeInodeID parent) name de de.ino row parentInode ∧ row.isDir = false := by
  have hdrop : v.Framed (w.unlinkDrop de.ino) := { h.toFramed with }
  have hstaging : (w.unlinkDrop de.ino).staging = v.staging.dropStagedChunksLocked de.ino :=
    congrArg (Staging.dropStagedChunksLocked de.ino) h.staging
  have hnorm := hdrop.normalizeInodeID parent
  have hcases := unlinkRemove_cases ok parent name de.ino (w.unlinkDrop de.ino)
  rw [hr] at hcases
  obtain ⟨hload, -, err, herr⟩ | ⟨⟨-, hok⟩, hframe, hst, de', row', parentInode, hun⟩ := hcases
  · have hinodes := hload.inodes.trans h.inodes
    exact ⟨⟨hdrop.trans hload.toFramed, .none hinodes (hload.dirEntries.trans h.dirEntries)
      (.inr ⟨_, hload.staging.trans hstaging⟩)⟩, fun _ _ => ⟨rfl, hinodes⟩, fun _ h => nomatch herr.symm.trans h⟩
  · rw [hnorm] at hun
    have hentry' : v.dirEntries.lookup (v.normalizeInodeID parent, name) = some de' :=
      h.dirEntries ▸ hun.entry
    have hrow' : v.inodes.lookup de.ino = some row' := h.inodes ▸ hun.child
    cases hentry.symm.trans hentry'
    cases hrow.symm.trans hrow'
    have hunlinks : Unlinks v r.1 (v.normalizeInodeID parent) name de de.ino row parentInode := by
      refine ⟨hentry, hrow, h.inodes ▸ hun.parentRow, ?_, ?_⟩
      · rw [hun.inodes, hdrop.hasOpenHandles]
        simp only [unlinkDrop, h.inodes]
      · rw [hun.dirEntries]
        simp only [unlinkDrop, h.dirEntries]
    exact ⟨⟨hdrop.trans hframe, .unlinked _ name de row parentInode hunlinks hfile (hst.trans hstaging)⟩,
      fun _ h => (nomatch hok.symm.trans h), fun _ _ => ⟨de, row, parentInode, hunlinks, hfile⟩⟩

theorem unlink_answered {r : Reply Unit} (h : v.unlink ok parent name = r) :
    Answered v r .plain fun _ => ∃ de row parentInode,
      Unlinks v r.1 (v.normalizeInodeID parent) name de de.ino row parentInode ∧ row.isDir = false := by
  have hload := unlinkResolve_loads parent name v
  unfold unlink at h
  split at h
  · rename_i w err hres
    rw [hres] at hload
    exact h ▸ hload.refused
  · rename_i w ino hres
    rw [hres] at hload
    obtain ⟨de, row, hentry, rfl, hrow, hfile⟩ := unlinkResolve_ok (v := v) (congrArg Prod.snd hres)
    exact hload.unlink_answered hentry hrow hfile h

theorem isEmptyDir_eq_false {e : (_ : Nat × Name) × DirEntry} (he : e ∈ v.dirEntries.entries) :
    v.isEmptyDir e.1.1 = false := by
  simp only [isEmptyDir, Bool.eq_false_iff, ne_eq, List.all_eq_true, not_forall]
  exact ⟨e, he, by simp⟩

theorem rmdir_answered {r : Reply Unit}
    (h : v.rmdir ok parent name = r) :
    Answered v r (.ofRmdir (v.dirEntries.lookup (v.normalizeInodeID parent, name)) r.2) fun _ =>
      ∃ de, v.dirEntries.lookup (v.normalizeInodeID parent, name) = some de ∧ InodesAfter v r.1 none (· = de.ino) := by
  have hplain {w} {entry : Option DirEntry} {err : VolumeError} {P : Unit → Prop}
      (hout : Answered v (w, .error err) .plain P) (heq : (w, .error err) = r) : Answered v r (.ofRmdir entry r.2) P := by
    subst heq
    cases entry <;> exact hout
  dsimp only [rmdir] at h
  split_ifs at h
  · exact hplain refused h
  split at h
  · exact hplain refused h
  rename_i de hentry
  split at h
  · exact hplain refused h
  rename_i row hino
  have hload := (SameRows.refl v).loaded de.ino row
  split_ifs at h with hdir hempty
  · exact hplain hload.refused h
  · exact hplain hload.refused h
  split at h
  · exact hplain (hload.failed _ le_rfl) h
  rename_i parentInode hparent
  replace hparent : v.inodes.lookup (v.normalizeInodeID parent) = some parentInode := hload.inodes ▸ hparent
  have hempty : v.isEmptyDir de.ino = true := by
    simpa only [isEmptyDir, hload.dirEntries, Bool.not_eq_false] using hempty
  -- the parent is loaded into the map from which the child is gone
  have hsame : v.SameRows { v.loaded de.ino row with
      dirParents := (v.loaded de.ino row).dirParents.erase de.ino } := { hload with }
  have hload' := hsame.loaded (v.normalizeInodeID parent) parentInode
  cases ok with
  | false => exact hplain hload'.refused h
  | true =>
    subst h
    rw [hentry]
    have hne : v.normalizeInodeID parent ≠ de.ino := by
      intro heq
      have hused := isEmptyDir_eq_false (e := ⟨_, de⟩) (mem_entries.2 hentry)
      simp only [heq, hempty] at hused
      cases hused
    refine .of_ok ⟨hload'.toFramed.trans (commit_framed _ _),
      .removed _ name de row parentInode hentry hino (by simpa using hdir) hempty hparent ?_ ?_ ?_⟩ ⟨de, rfl, fun i => ?_⟩
    · simp only [commit_cons, commit_nil, apply, hload'.inodes]
    · simp only [commit_cons, commit_nil, apply, hload'.dirEntries]
    · exact (commit_staging _ _).trans hload'.staging
    · have hrow : (v.inodes.erase de.ino).lookup (v.normalizeInodeID parent) = some parentInode := by
        rwa [lookup_erase, if_neg hne]
      simp only [commitTx, if_true, commit_cons, commit_nil, apply, hload'.inodes]
      rw [exists_lookup_insert_iff hrow, lookup_erase]
      by_cases hi : i = de.ino <;> simp [hi]

/-! Rename. -/

theorem loaded_remembers {ino d p : Nat} {row row' : Inode} (h : w.dirParents.lookup d = some p)
    (hrow : v.inodes.lookup d = some row) (hp : row.parentIno = p)
    (hrow' : v.inodes.lookup ino = some row') : (w.loaded ino row').dirParents.lookup d = some p := by
  unfold loaded
  split
  case isFalse => exact h
  by_cases hd : d = ino
  · subst hd
    cases hrow.symm.trans hrow'
    exact hp ▸ AList.lookup_insert _
  · exact (AList.lookup_insert_ne hd).trans h

theorem renameRead_spec (oldParent : Nat) (oldName : Name) (newParent : Nat) (newName : Name) (v : Volume) :
    ∃ w r, v.renameRead oldParent oldName newParent newName = (w, r) ∧ v.Loads w ∧ ∀ m, r = .ok m → m.Reads v ∧
      (m.newParentInode.parentIno ≠ 0 → w.dirParents.lookup m.newParent = some m.newParentInode.parentIno) := by
  refine ⟨_, _, (Prod.eta _).symm, ?_⟩
  dsimp only [renameRead]
  split_ifs
  · exact ⟨.refl v, nofun⟩
  · exact ⟨.refl v, nofun⟩
  split
  · exact ⟨.refl v, nofun⟩
  · exact ⟨.refl v, nofun⟩
  rename_i oldDe newParentInode hold hnew
  have hload := (Loads.refl v).loaded hnew
  split_ifs with hdir
  · exact ⟨hload, nofun⟩
  have hdir : newParentInode.isDir = true := by simpa using hdir
  split
  · exact ⟨hload, nofun⟩
  rename_i childInode hchild
  rw [hload.inodes] at hchild
  have hload₁ := hload.loaded hchild
  split
  · exact ⟨hload₁, nofun⟩
  rename_i oldParentInode hop
  rw [hload₁.inodes] at hop
  have hload₂ := hload₁.loaded hop
  -- the new parent was loaded first; loading the others does not change what is known of it
  have hknown := fun hp : newParentInode.parentIno ≠ 0 =>
    loaded_remembers (loaded_remembers (loaded_dirParents (v := v) hdir hp) hnew rfl hchild) hnew rfl hop
  split
  · rename_i hfree
    rw [hload₂.dirEntries] at hfree
    refine ⟨hload₂, fun m hm => ?_⟩
    cases hm
    exact ⟨⟨⟨oldDe, hold, rfl⟩, hchild, hop, hnew, hdir, fun _ => hfree, nofun⟩, hknown⟩
  · rename_i targetDe htarget
    rw [hload₂.dirEntries] at htarget
    split
    · exact ⟨hload₂, nofun⟩
    rename_i targetInode hrow
    rw [hload₂.inodes] at hrow
    refine ⟨hload₂.loaded hrow, fun m hm => ?_⟩
    cases hm
    refine ⟨⟨⟨oldDe, hold, rfl⟩, hchild, hop, hnew, hdir, nofun, ?_⟩, fun hp =>
      loaded_remembers (hknown hp) hnew rfl hrow⟩
    rintro ino row ⟨⟩
    exact ⟨⟨targetDe, htarget, rfl⟩, hrow⟩

theorem notBelow_of_cycleCheck {m : Renaming} (h : w.cycleCheck m = some none) (hb : m.between = true) :
    ∃ fuel, isBelow m.childIno w.rootInodeID w.dirParents fuel m.newParent = some false := by
  have hne : m.newParent ≠ m.oldParent := by
    simp only [between, Bool.and_eq_true, decide_eq_true_eq] at hb
    exact hb.2
  rw [cycleCheck, if_neg hne] at h
  split at h
  · cases h
  · cases h
  · exact ⟨_, ‹_›⟩

theorem accepted_of_refuses {m : Renaming} (h : w.refuses m = some none)
    (hknown : m.newParentInode.parentIno ≠ 0 →
      w.dirParents.lookup m.newParent = some m.newParentInode.parentIno) : m.Accepted w := by
  have hfile : m.childInode.isDir = false → m.between = false := by
    intro hf
    simp [between, hf]
  unfold refuses at h
  cases ht : m.target with
  | none =>
    simp only [ht] at h
    refine ⟨by simp [ht], by simp [ht], fun hb => ?_, hknown⟩
    split_ifs at h with hdir
    · exact notBelow_of_cycleCheck h hb
    · simp [hfile (by simpa using hdir)] at hb
  | some target =>
    obtain ⟨ino, row⟩ := target
    simp only [ht] at h
    split_ifs at h with hdir htdir hempty hkind
    · cases h
    · cases h
    · refine ⟨fun i r hir => ?_, fun i r hir _ => ?_, notBelow_of_cycleCheck h, hknown⟩
      · cases ht.symm.trans hir
        simpa [hdir] using htdir
      · cases ht.symm.trans hir
        simpa using hempty
    · cases h
    · refine ⟨fun i r hir => ?_, fun i r hir hr => ?_, fun hb => ?_, hknown⟩
      · cases ht.symm.trans hir
        simp_all
      · cases ht.symm.trans hir
        exact absurd hr hkind
      · simp [hfile (by simpa using hdir)] at hb

theorem targetChange_apply (ino : Nat) (row : Inode) (opened : Bool) (v : Volume) :
    v.apply (targetChange ino row opened) = { v with
      inodes := if Renaming.deletes row opened then v.inodes.erase ino else v.inodes.insert ino row.unlinked } := by
  unfold targetChange deletes
  cases hdir : row.isDir with
  | true => simp [apply]
  | false =>
    cases opened with
    | true => simp [apply]
    | false =>
      by_cases h0 : row.unlinked.nlink = 0 <;> simp [apply, h0]

theorem renameChanges_rows (m : Renaming) (v : Volume) (parents : AList fun _ : Nat => Nat) :
    ({ v with dirParents := parents }.commit (v.renameChanges m)).inodes = m.inodesAfter v.hasOpenHandles v.inodes ∧
      ({ v with dirParents := parents }.commit (v.renameChanges m)).dirEntries =
        (v.dirEntries.erase (m.oldParent, m.oldName)).insert (m.newParent, m.newName) m.entry := by
  unfold renameChanges inodesAfter withoutTarget moved
  cases ht : m.target with
  | none =>
    by_cases hp : m.newParent = m.oldParent <;> simp [apply, hp, entry]
  | some target =>
    obtain ⟨ino, row⟩ := target
    by_cases hp : m.newParent = m.oldParent <;>
      simp only [List.cons_append, List.nil_append, commit_cons, targetChange_apply] <;>
      simp [apply, hp, entry, insert_erase_self]

/-- The rename that the call makes, unless it is refused. -/
def acceptedRename (oldParent : Nat) (oldName : Name) (newParent : Nat) (newName : Name) (v : Volume) : Option Renaming :=
  match v.renameRead oldParent oldName newParent newName with
  | (_, .error _) => none
  | (w, .ok m) => if w.refuses m = some none then some m else none

/-- The link, the removal of a directory or the rename that a call makes. -/
def does (ok : Bool) (v : Volume) : NamespaceCall → Done
  | .link oldInodeID newParent newName => .ofLink (v.link ok oldInodeID newParent newName).2
  | .rmdir parent name =>
    .ofRmdir (v.dirEntries.lookup (v.normalizeInodeID parent, name)) (v.rmdir ok parent name).2
  | .rename oldParent oldName newParent newName =>
    .ofRename (if ok then v.acceptedRename oldParent oldName newParent newName else none)
  | _ => .plain

theorem rename_answered {oldParent : Nat} {oldName : Name} {newParent : Nat} {newName : Name}
    {r : Reply Unit} (h : v.rename ok oldParent oldName newParent newName = some r) :
    Answered v r (v.does ok (.rename oldParent oldName newParent newName)) fun _ =>
      ok = true ∧ ∃ m, v.acceptedRename oldParent oldName newParent newName = some m := by
  obtain ⟨w, res, hres, hload, hread⟩ := renameRead_spec oldParent oldName newParent newName v
  unfold rename at h
  show Answered v r (.ofRename (if ok then v.acceptedRename oldParent oldName newParent newName else none)) _
  unfold acceptedRename
  rw [hres] at h ⊢
  cases res with
  | error err =>
    cases h
    rw [ite_self]
    exact hload.toSameRows.refused
  | ok m =>
    obtain ⟨hreads, hknown⟩ := hread m rfl
    replace h : w.renameTo ok m = some r := h
    show Answered v r (.ofRename (if ok then (if w.refuses m = some none then some m else none) else none)) fun _ =>
      ok = true ∧ ∃ m', (if w.refuses m = some none then some m else none) = some m'
    unfold renameTo at h
    split at h
    · cases h
    · next err hrefuses =>
      cases h
      have hnone : w.refuses m ≠ some none := by simp [hrefuses]
      rw [if_neg hnone, ite_self]
      exact hload.toSameRows.refused
    · next hrefuses =>
      rw [if_pos hrefuses]
      have hframe : v.Framed (w.renameParents m) := { hload.toFramed with }
      cases ok with
      | false =>
        cases h
        exact hload.toSameRows.failed _ le_rfl
      | true =>
        cases h
        obtain ⟨hinodes, hentries⟩ := renameChanges_rows m w (w.renameParents m).dirParents
        refine .of_ok ⟨hframe.trans (commit_framed _ _), .renamed m w
          ⟨hload, hreads, accepted_of_refuses hrefuses hknown, ?_, ?_, ?_⟩⟩ ⟨rfl, m, rfl⟩
        · rwa [← hload.inodes, ← funext hload.hasOpenHandles]
        · rwa [← hload.dirEntries]
        · exact (commit_staging _ _).trans hload.staging

/-- Every call leaves the rows alone or has one of the effects. -/
theorem serve_answered {call : NamespaceCall} {r : Reply Unit}
    (h : v.serve ok call = some r) : Answered v r (v.does ok call) fun _ => True := by
  cases call with
  | mkdir parent name mode => cases h; exact (mkdir_answered rfl).map _
  | createFile parent name mode => cases h; exact (createFile_answered rfl).map _
  | symlink parent name => cases h; exact (symlink_answered rfl).map _
  | link oldInodeID newParent newName => cases h; exact (link_answered rfl).map _
  | unlink parent name => cases h; exact { unlink_answered rfl with done := fun _ _ => trivial }
  | rmdir parent name => cases h; exact { rmdir_answered rfl with done := fun _ _ => trivial }
  | rename oldParent oldName newParent newName => exact { rename_answered h with done := fun _ _ => trivial }

theorem serve_outcome {call : NamespaceCall} {r : Except VolumeError Unit}
    (h : v.serve ok call = some (v', r)) : Outcome v v' (v.does ok call) :=
  (serve_answered h).outcome

end Volume

end InClusterStorage.Controller
