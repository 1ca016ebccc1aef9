import Mathlib.Data.UInt
import InClusterStorage.Daemon.Scan
import InClusterStorage.Lib.KeyedSteps

/- The replay of a checkpoint at the controller (`ReplayOperations`, `checkpoint.go`, with the
   calls of `controller/volume.go`).

   The controller's tree is a table from paths to entries. Without hard links and with one
   client, the inode that `resolveInode` finds for a path, in its table or by `Lookup`, is the
   entry of the path; it fails where there is none. An operation that fails stops the replay.
   `Unlink` and `Rmdir` of a name that is not there count as done, `SetAttr` of a path that is
   not there is skipped, and `RemoveXAttr` of an attribute that is not there counts as done.
   The `Fsync` calls at the end change nothing in the tree. -/
namespace InClusterStorage.Daemon

open Bytes KeyedSteps Table List FileOp

/-- What the controller has. -/
abbrev Tree := AList fun _ : Path => Entry

/-- The bit that makes entries of a directory take its group. -/
def hasSetgid (mode : Nat) : Bool := mode / 0o2000 % 2 = 1

namespace Tree

def hasChild (t : Tree) (p : Path) : Bool :=
  t.entries.any fun e => match e.1 with
    | [] => false
    | _ :: parent => parent = p

/-- The directory that something new is put into. -/
def parentDir (t : Tree) : Path → Option Entry
  | [] => none
  | _ :: parent => match t.lookup parent with
    | some d => if d.kind = .dir then some d else none
    | none => none

end Tree

namespace Entry

/-- The group of a new entry of a directory. -/
def groupFor (parent : Entry) (gid : Nat) : Nat := if hasSetgid parent.mode then parent.gid else gid

/-- `Mkdir`: a directory also takes the bit from its parent. -/
def newDir (parent : Entry) (mode uid gid : Nat) : Entry where
  kind := .dir
  mode := if hasSetgid parent.mode ∧ ¬ hasSetgid mode then mode + 0o2000 else mode
  uid := uid
  gid := parent.groupFor gid
  xattrs := fun _ => none

/-- `SetAttr`; a field that is 0 is not sent. -/
def setAttr (mode uid gid : Nat) (e : Entry) : Entry :=
  { e with
    mode := if mode ≠ 0 then mode else e.mode
    uid := if uid ≠ 0 then uid else e.uid
    gid := if gid ≠ 0 then gid else e.gid }

/-- Change the bytes of a file. A symbolic link takes the call, but stays what it is. -/
def changeContent (f : List UInt8 → List UInt8) (e : Entry) : Option Entry :=
  match e.kind with
  | .dir => none
  | .file content => some { e with kind := .file (f content) }
  | .symlink _ => some e

end Entry

/-- What an operation makes of the entry of its path, with the directory that the path is in;
`none` where the call fails. -/
def FileOp.effect (parent : Option Entry) (op : FileOp) (old : Option Entry) : Option (Option Entry) :=
  match op, old with
  | .unlink _, none | .rmdir _, none => some none
  | .unlink _, some e => if e.kind = .dir then none else some none
  | .rmdir _, some e => if e.kind = .dir then some none else none
  | .mkdir _ mode uid gid, none => parent.map fun d => some (d.newDir (if mode = 0 then 0o755 else mode) uid gid)
  | .mkdir _ _ _ _, some _ => none
  | .createFile _ mode uid gid data, old =>
    parent.bind fun d =>
      let new (xattrs : String → Option (List UInt8)) : Entry :=
        { kind := .file data, mode := if mode = 0 then 0o644 else mode, uid, gid := d.groupFor gid, xattrs }
      match old with
      | none => some (some (new fun _ => none))
      | some e => match e.kind with
        -- a file that is there is overwritten, and keeps its attributes
        | .file _ => some (some (new e.xattrs))
        | _ => none
  | .symlink _ target uid gid, none =>
    parent.map fun d =>
      some { kind := .symlink target, mode := 0o777, uid, gid := d.groupFor gid, xattrs := fun _ => none }
  | .symlink _ _ _ _, some _ => none
  | .truncateFile _ size, old => (old.bind (Entry.changeContent (resize size))).map some
  | .writeFile _ offset data, old => (old.bind (Entry.changeContent (splice · offset data))).map some
  | .setAttr _ mode _ uid gid, old => some (old.map (Entry.setAttr mode uid gid))
  | .setXAttr _ name value, old => old.map fun e => some { e with xattrs := Function.update e.xattrs name (some value) }
  | .removeXAttr _ name, old => old.map fun e => some { e with xattrs := Function.update e.xattrs name none }

/-- A directory that is not empty is not removed. -/
def FileOp.Refused (t : Tree) : FileOp → Bool
  | .rmdir p => t.hasChild p
  | _ => false

/-- Put an entry under a path, or remove it. -/
def Tree.set (t : Tree) (p : Path) : Option Entry → Tree
  | none => t.erase p
  | some e => t.insert p e

def replayOp (t : Tree) (op : FileOp) : Option Tree :=
  if op.Refused t then none
  else (op.effect (t.parentDir op.path) (t.lookup op.path)).map (t.set op.path)

/-- `ReplayOperations`. -/
def replayOperations (t : Tree) (ops : List FileOp) : Option Tree := run replayOp t ops

/-- The controller's tree is that of the layer. -/
def Tree.Mirrors (t : Tree) (lower : Layer) : Prop := ∀ p, t.lookup p = (lower.lookup p).map LocalEntry.seen

/-! One operation. -/

theorem Tree.lookup_set (t : Tree) (p : Path) (new : Option Entry) (q : Path) :
    (t.set p new).lookup q = if q = p then new else t.lookup q := by
  cases new with
  | none => exact lookup_erase _ _ _
  | some e => exact lookup_insert _ _ _ _

variable {op : FileOp} {t t' : Tree} {p : Path}

/-- What an operation does: its effect at its path, and nothing elsewhere. -/
theorem of_replayOp (h : replayOp t op = some t') :
    op.Refused t = false ∧ ∃ new, op.effect (t.parentDir op.path) (t.lookup op.path) = some new ∧
      ∀ q, t'.lookup q = if q = op.path then new else t.lookup q := by
  obtain ⟨hrefused, h⟩ := Option.ite_none_left_eq_some.mp h
  obtain ⟨new, heffect, rfl⟩ := Option.map_eq_some_iff.mp h
  exact ⟨Bool.eq_false_iff.mpr hrefused, new, heffect, t.lookup_set op.path new⟩

theorem replayOp_frame (t : Tree) (op : FileOp) (t' : Tree) (h : replayOp t op = some t') (p : Path)
    (hp : p ≠ op.path) : t'.lookup p = t.lookup p := by
  obtain ⟨-, new, -, hlookup⟩ := of_replayOp h
  rw [hlookup, if_neg hp]

theorem replayOp_self (h : replayOp t op = some t') :
    op.effect (t.parentDir op.path) (t.lookup op.path) = some (t'.lookup op.path) := by
  obtain ⟨-, new, heffect, hlookup⟩ := of_replayOp h
  rw [hlookup, if_pos rfl, heffect]

/-! The tree stays a tree. -/

/-- Every entry is in a directory. -/
def Tree.WellFormed (t : Tree) : Prop :=
  ∀ name parent e, t.lookup (name :: parent) = some e → ∃ d, t.lookup parent = some d ∧ d.kind = .dir

theorem Tree.hasChild_of_lookup {name : String} {e : Entry} (h : t.lookup (name :: p) = some e) :
    t.hasChild p = true := by
  unfold hasChild
  rw [any_eq_true]
  refine ⟨⟨name :: p, e⟩, mem_entries.mpr h, ?_⟩
  exact decide_eq_true rfl

theorem Tree.parentDir_eq_some {d : Entry} (h : t.parentDir p = some d) :
    ∃ name parent, p = name :: parent ∧ t.lookup parent = some d ∧ d.kind = .dir := by
  cases p with
  | nil => cases h
  | cons name parent =>
    simp only [parentDir] at h
    split at h
    next d' hl =>
      obtain ⟨hdir, ⟨⟩⟩ := Option.ite_none_right_eq_some.mp h
      exact ⟨name, parent, rfl, hl, hdir⟩
    · cases h

theorem Entry.isDir_changeContent {f : List UInt8 → List UInt8} {e e' : Entry} (h : e.changeContent f = some e') :
    e.kind ≠ .dir ∧ e'.kind ≠ .dir := by
  unfold Entry.changeContent at h
  split at h <;> cases h
  · rename_i content hkind
    rw [hkind]
    exact ⟨nofun, nofun⟩
  · rename_i target hkind
    rw [hkind]
    exact ⟨nofun, nofun⟩

variable {parent : Option Entry}

/-- Something new is put into a directory. -/
theorem FileOp.effect_new {new : Entry} (h : op.effect parent none = some (some new)) : ∃ d, parent = some d := by
  cases op <;> simp_all [effect] <;> exact Option.isSome_iff_exists.mp (by cases parent <;> simp_all)

/-- No operation makes a directory of something else, or something else of a directory. -/
theorem FileOp.effect_kind {old new : Entry}
    (h : op.effect parent (some old) = some (some new)) : new.kind = .dir ↔ old.kind = .dir := by
  cases op with
  | truncateFile _ size | writeFile _ offset data =>
    obtain ⟨e, hchange, heq⟩ := Option.map_eq_some_iff.mp h
    cases heq
    have hkinds := Entry.isDir_changeContent hchange
    exact iff_of_false hkinds.2 hkinds.1
  | createFile _ mode uid gid data =>
    obtain ⟨d, -, hnew⟩ := Option.bind_eq_some_iff.mp h
    simp only at hnew
    split at hnew <;> cases hnew
    rename_i content hkind
    rw [hkind]
    exact iff_of_false nofun nofun
  | setAttr _ mode mtime uid gid | setXAttr _ name value | removeXAttr _ name => cases h; exact Iff.rfl
  | unlink _ | rmdir _ => simp only [effect] at h; split at h <;> cases h
  | mkdir _ _ _ _ | symlink _ _ _ _ => cases h

/-- Only `Rmdir` removes a directory. -/
theorem FileOp.effect_removed {old : Entry}
    (h : op.effect parent (some old) = some none) : old.kind ≠ .dir ∨ ∃ p, op = .rmdir p := by
  cases op with
  | unlink _ =>
    obtain ⟨hkind, h⟩ := Option.ite_none_left_eq_some.mp h
    exact .inl hkind
  | rmdir p => exact .inr ⟨p, rfl⟩
  | createFile _ mode uid gid data =>
    obtain ⟨d, -, hnew⟩ := Option.bind_eq_some_iff.mp h
    simp only at hnew
    split at hnew <;> cases hnew
  | truncateFile _ size | writeFile _ offset data =>
    obtain ⟨e, -, heq⟩ := Option.map_eq_some_iff.mp h
    cases heq
  | setAttr _ _ _ _ _ | setXAttr _ _ _ | removeXAttr _ _ | mkdir _ _ _ _ | symlink _ _ _ _ => cases h

/-- A directory that holds something, or that the operation puts something into, stays one. -/
theorem dir_of_replayOp (h : replayOp t op = some t') {name : String} {d : Entry}
    (hd : t.lookup p = some d) (hdir : d.kind = .dir) (hold : op.path = name :: p ∨ ∃ c, t.lookup (name :: p) = some c) :
    ∃ d', t'.lookup p = some d' ∧ d'.kind = .dir := by
  obtain ⟨hrefused, new, heffect, hlookup⟩ := of_replayOp h
  by_cases hp : p = op.path
  · obtain ⟨c, hc⟩ := hold.resolve_left fun heq => cons_ne_self name p (heq ▸ hp).symm
    rw [hlookup p, if_pos hp]
    rw [← hp, hd] at heffect
    cases new with
    | none =>
      cases effect_removed heffect with
      | inl hkind => exact absurd hdir hkind
      | inr hr =>
        obtain ⟨q, rfl⟩ := hr
        have hq : p = q := hp
        have hchild' : t.hasChild q = true := Tree.hasChild_of_lookup (hq ▸ hc)
        rw [FileOp.Refused, hchild'] at hrefused
        cases hrefused
    | some d' => exact ⟨d', rfl, (effect_kind heffect).mpr hdir⟩
  · exact ⟨d, by rw [hlookup, if_neg hp, hd], hdir⟩

theorem wellFormed_replayOp (hwf : t.WellFormed) (h : replayOp t op = some t') : t'.WellFormed := by
  intro name p c hchild
  obtain ⟨-, new, heffect, hlookup⟩ := of_replayOp h
  by_cases hp : name :: p = op.path
  · -- the entry itself is new or changed
    have hnew : new = some c := by
      rwa [hlookup, if_pos hp] at hchild
    subst hnew
    cases hold : t.lookup op.path with
    | none =>
      rw [hold] at heffect
      obtain ⟨d, hd⟩ := effect_new heffect
      obtain ⟨name', parent, hpath, hl, hdir⟩ := Tree.parentDir_eq_some hd
      rw [← hp] at hpath
      cases hpath
      exact dir_of_replayOp h hl hdir (.inl hp.symm)
    | some e =>
      obtain ⟨d, hl, hdir⟩ := hwf name p e (hp ▸ hold)
      exact dir_of_replayOp h hl hdir (.inl hp.symm)
  · have hc : t.lookup (name :: p) = some c := by
      rw [← hchild, hlookup, if_neg hp]
    obtain ⟨d, hl, hdir⟩ := hwf name p c hc
    exact dir_of_replayOp h hl hdir (.inr ⟨c, hc⟩)

theorem wellFormed_replay {ops : List FileOp} (hwf : t.WellFormed)
    (h : replayOperations t ops = some t') : t'.WellFormed :=
  run_inv (fun _ _ _ _ hI hs => wellFormed_replayOp hI hs) hwf h

/-- Below something that is not a directory there is nothing. -/
theorem Tree.WellFormed.eq_none (hwf : t.WellFormed) {a : Path} (ha : ∀ e, t.lookup a = some e → e.kind ≠ .dir) :
    ∀ {p : Path}, a <:+ p → p ≠ a → t.lookup p = none := by
  intro p
  induction p with
  | nil =>
    intro hsuffix hne
    exact absurd (suffix_nil.mp hsuffix).symm hne
  | cons name parent ih =>
    intro hsuffix hne
    have hparent : a <:+ parent := (suffix_cons_iff.mp hsuffix).resolve_left (Ne.symm hne)
    cases hl : t.lookup (name :: parent) with
    | none => rfl
    | some e =>
      obtain ⟨d, hd, hdir⟩ := hwf name parent e hl
      by_cases heq : parent = a
      · exact absurd hdir (ha d (heq ▸ hd))
      · rw [ih hparent heq] at hd
        cases hd

/-! The tree of a layer. -/

/-- The controller's tree after a volume was materialised. -/
def Layer.tree (lower : Layer) : Tree where
  entries := lower.entries.map fun e => ⟨e.1, e.2.seen⟩
  nodupKeys := by
    have hkeys : (lower.entries.map fun e => (⟨e.1, e.2.seen⟩ : (_ : Path) × Entry)).keys = lower.entries.keys := by
      rw [List.keys, List.map_map]
      rfl
    rw [List.NodupKeys, hkeys]
    exact lower.nodupKeys

theorem Layer.mirrors_tree (lower : Layer) : lower.tree.Mirrors lower := by
  intro p
  apply Option.ext
  intro e
  rw [Option.map_eq_some_iff, ← mem_entries (e := ⟨p, e⟩)]
  refine ⟨fun h => ?_, fun h => ?_⟩
  · obtain ⟨x, hx, heq⟩ := mem_map.mp h
    cases heq
    exact ⟨x.2, mem_entries.mp hx, rfl⟩
  · obtain ⟨l, hl, rfl⟩ := h
    exact mem_map.mpr ⟨⟨p, l⟩, mem_entries.mpr hl, rfl⟩

theorem Tree.Mirrors.wellFormed {lower : Layer} (h : t.Mirrors lower) (hl : lower.WellFormed) : t.WellFormed := by
  intro name parent e he
  rw [h] at he
  obtain ⟨l, hlookup, rfl⟩ := Option.map_eq_some_iff.mp he
  obtain ⟨d, hd, hdir⟩ := hl.parent name parent l hlookup
  exact ⟨d.seen, by rw [h, hd]; rfl, hdir⟩

/-! A volume with a file `app.log`, and no links to follow, for examples. -/

def noLinks : Links := { lower := fun _ => none, upperGone := fun _ => true }

def rootDir : LocalEntry := { kind := .dir, mode := 0o755, uid := 0, gid := 0 }

def appLog : LocalEntry := { kind := .file [1, 2], mode := 0o644, uid := 1000, gid := 1000, mtime := 5 }

def appVolume : Layer := (∅ : Layer).insert [] rootDir |>.insert ["app.log"] appLog

/-- The file was deleted, and another one made. -/
def appRotated : UpperLayer :=
  (∅ : UpperLayer).insert [] (.entry rootDir false) |>.insert ["app.log"] .whiteout
    |>.insert ["app.1"] (.entry appLog false)

end InClusterStorage.Daemon
