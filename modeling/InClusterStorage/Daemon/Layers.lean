import InClusterStorage.Lib.Table

/- The two layers of an exclusive-local volume (`cmd/objectfs-node-daemon`): `lower`, which is
   the volume as it was materialised, and `upper`, in which overlayfs keeps what the workload
   has changed since; and the tree that the workload sees.

   A path is written from its last name up, so that the path of the directory an entry is in
   is its tail and the root is `[]`. Trees are finite and hold directories, regular files and
   symbolic links. Hard links and special files are left out, and so are access and change
   times. -/
namespace InClusterStorage.Daemon

open Table List

/-- The last name comes first; the root is `[]`. -/
abbrev Path := List String

inductive Kind where
  | dir
  | file (content : List UInt8)
  | symlink (target : String)
  deriving DecidableEq, Repr

/-- What the controller has under a path. `mode` has the bits 07777. -/
structure Entry where
  kind : Kind
  mode : Nat
  uid : Nat
  gid : Nat
  xattrs : String → Option (List UInt8)

/-- A file, a directory or a link of a layer. -/
structure LocalEntry where
  kind : Kind
  mode : Nat
  uid : Nat
  gid : Nat
  mtime : Nat := 0
  xattrs : AList fun _ : String => List UInt8 := ∅

/-- What `upper` has under a path. A directory may hide what `lower` has below it (the
attribute `overlay.opaque`). -/
inductive UpperEntry where
  | whiteout
  | entry (e : LocalEntry) (hides : Bool)

abbrev Layer := AList fun _ : Path => LocalEntry

abbrev UpperLayer := AList fun _ : Path => UpperEntry

def isOverlayInternalXattr (name : String) : Bool :=
  "trusted.overlay.".toList.isPrefixOf name.toList || "user.overlay.".toList.isPrefixOf name.toList

namespace LocalEntry

def isDir (e : LocalEntry) : Bool := e.kind = .dir

/-- `Size` of the file information; it is not used for directories. -/
def size (e : LocalEntry) : Nat :=
  match e.kind with
  | .dir => 0
  | .file content => content.length
  | .symlink target => target.length

/-- The extended attributes without those of overlayfs itself. -/
def ownXattrs (e : LocalEntry) : AList fun _ : String => List UInt8 :=
  Table.select (fun name => !isOverlayInternalXattr name) e.xattrs

/-- The entry as the workload and the controller know it. -/
def seen (e : LocalEntry) : Entry where
  kind := e.kind
  mode := e.mode
  uid := e.uid
  gid := e.gid
  xattrs := fun name => e.ownXattrs.lookup name

/-- The permission bits of a symbolic link are always the same. -/
def LinkMode (e : LocalEntry) : Prop := ∀ target, e.kind = .symlink target → e.mode = 0o777

end LocalEntry

/-- Nothing that `lower` has below the path is seen. -/
def UpperEntry.hidesBelow : UpperEntry → Bool
  | .whiteout => true
  | .entry e hides => !e.isDir || hides

/-- Something above the path satisfies `q`. -/
def anyAbove (q : Path → Bool) : Path → Bool
  | [] => false
  | _ :: parent => q parent || anyAbove q parent

/-- Something above the path hides what `lower` has there. -/
def hidden (upper : UpperLayer) (p : Path) : Bool :=
  anyAbove (fun a => (upper.lookup a).any UpperEntry.hidesBelow) p

/-- The overlay of the two layers. -/
def merge (lower : Layer) (upper : UpperLayer) (p : Path) : Option Entry :=
  match upper.lookup p with
  | some .whiteout => none
  | some (.entry e _) => some e.seen
  | none => if hidden upper p then none else (lower.lookup p).map LocalEntry.seen

/-- Every entry is in a directory. -/
structure Layer.WellFormed (lower : Layer) : Prop where
  root : ∃ e, lower.lookup [] = some e ∧ e.kind = .dir
  parent : ∀ name parent e, lower.lookup (name :: parent) = some e → ∃ d, lower.lookup parent = some d ∧ d.kind = .dir
  links : ∀ p e, lower.lookup p = some e → e.LinkMode

/-- Every entry and every whiteout is in a directory of `upper`. -/
structure UpperLayer.WellFormed (upper : UpperLayer) : Prop where
  root : ∃ e, upper.lookup [] = some (.entry e false) ∧ e.kind = .dir
  parent : ∀ name parent u, upper.lookup (name :: parent) = some u →
    ∃ d hides, upper.lookup parent = some (.entry d hides) ∧ d.kind = .dir
  links : ∀ p e hides, upper.lookup p = some (.entry e hides) → e.LinkMode

theorem anyAbove_iff {q : Path → Bool} {p : Path} : anyAbove q p = true ↔ ∃ a, a <:+ p ∧ a ≠ p ∧ q a = true := by
  induction p with
  | nil =>
    refine iff_of_false Bool.false_ne_true fun h => ?_
    obtain ⟨a, hsuffix, hne, -⟩ := h
    exact hne (suffix_nil.mp hsuffix)
  | cons name parent ih =>
    rw [anyAbove, Bool.or_eq_true, ih]
    refine ⟨fun h => ?_, fun h => ?_⟩
    · cases h with
      | inl h => exact ⟨parent, suffix_cons name parent, (cons_ne_self name parent).symm, h⟩
      | inr h =>
        obtain ⟨a, hsuffix, -, hq⟩ := h
        have hlen := hsuffix.length_le
        refine ⟨a, hsuffix.trans (suffix_cons name parent), fun heq => ?_, hq⟩
        rw [heq, length_cons] at hlen
        omega
    · obtain ⟨a, hsuffix, hne, hq⟩ := h
      have hparent : a <:+ parent := (suffix_cons_iff.mp hsuffix).resolve_left hne
      by_cases heq : a = parent
      · exact .inl (heq ▸ hq)
      · exact .inr ⟨a, hparent, heq, hq⟩

/-- Above an entry or a whiteout of `upper` there are directories. -/
theorem UpperLayer.WellFormed.above {upper : UpperLayer} (h : upper.WellFormed) {a : Path} :
    ∀ {p : Path} {u : UpperEntry}, upper.lookup p = some u → a <:+ p → a ≠ p →
      ∃ d hides, upper.lookup a = some (.entry d hides) ∧ d.kind = .dir := by
  intro p
  induction p with
  | nil => exact fun _ hsuffix hne => absurd (suffix_nil.mp hsuffix) hne
  | cons name parent ih =>
    intro u hu hsuffix hne
    obtain ⟨d, hides, hd, hdir⟩ := h.parent name parent u hu
    by_cases heq : a = parent
    · exact ⟨d, hides, heq ▸ hd, hdir⟩
    · exact ih hd ((suffix_cons_iff.mp hsuffix).resolve_left hne) heq

theorem LocalEntry.isDir_iff {e : LocalEntry} : e.isDir = true ↔ e.kind = .dir := decide_eq_true_iff

/-! The conditions on layers can be evaluated. -/

instance (e : LocalEntry) : Decidable e.LinkMode :=
  match hkind : e.kind with
  | .symlink _ => decidable_of_iff (e.mode = 0o777)
      ⟨fun h target _ => h, fun h => h _ hkind⟩
  | .dir => isTrue fun target h => by rw [hkind] at h; cases h
  | .file _ => isTrue fun target h => by rw [hkind] at h; cases h

/-- The directory a path is in satisfies `q`. -/
def parentIs (q : Path → Bool) : Path → Bool
  | [] => true
  | _ :: parent => q parent

/-- What holds of every entry, and of the directory it is in. -/
theorem forall_entries_iff {V : Type} {layer : AList fun _ : Path => V} {dir : V → Bool} {ok : V → Prop} :
    (∀ x ∈ layer.entries, parentIs (fun parent => (layer.lookup parent).any dir) x.1 = true ∧ ok x.2) ↔
      (∀ name parent u, layer.lookup (name :: parent) = some u → (layer.lookup parent).any dir = true) ∧
        ∀ p u, layer.lookup p = some u → ok u := by
  refine ⟨fun h => ⟨fun name parent u hu => (h ⟨name :: parent, u⟩ (mem_entries.mpr hu)).1,
    fun p u hu => (h ⟨p, u⟩ (mem_entries.mpr hu)).2⟩, fun h x hx => ?_⟩
  obtain ⟨p, u⟩ := x
  refine ⟨?_, h.2 p u (mem_entries.mp hx)⟩
  cases p with
  | nil => rfl
  | cons name parent => exact h.1 name parent u (mem_entries.mp hx)

theorem Layer.wellFormed_iff (lower : Layer) :
    lower.WellFormed ↔ (lower.lookup []).any LocalEntry.isDir = true ∧ ∀ x ∈ lower.entries,
      parentIs (fun parent => (lower.lookup parent).any LocalEntry.isDir) x.1 = true ∧ x.2.LinkMode := by
  rw [forall_entries_iff]
  simp only [Option.any_eq_true, LocalEntry.isDir_iff]
  exact ⟨fun h => ⟨h.root, h.parent, h.links⟩, fun h => ⟨h.1, h.2.1, h.2.2⟩⟩

instance (lower : Layer) : Decidable lower.WellFormed := decidable_of_iff _ lower.wellFormed_iff.symm

def UpperEntry.isDir : UpperEntry → Bool
  | .whiteout => false
  | .entry e _ => e.isDir

def UpperEntry.LinkMode : UpperEntry → Prop
  | .whiteout => True
  | .entry e _ => e.LinkMode

instance (u : UpperEntry) : Decidable u.LinkMode :=
  match u with
  | .whiteout => isTrue trivial
  | .entry e _ => inferInstanceAs (Decidable e.LinkMode)

theorem UpperLayer.wellFormed_iff (upper : UpperLayer) :
    upper.WellFormed ↔
      (upper.lookup []).any (fun u => u.isDir && !u.hidesBelow) = true ∧ ∀ x ∈ upper.entries,
        parentIs (fun parent => (upper.lookup parent).any UpperEntry.isDir) x.1 = true ∧ x.2.LinkMode := by
  have hdir (p) : (upper.lookup p).any UpperEntry.isDir = true ↔
      ∃ e hides, upper.lookup p = some (.entry e hides) ∧ e.kind = .dir := by
    cases upper.lookup p with
    | none => simp
    | some u => cases u <;> simp [UpperEntry.isDir, LocalEntry.isDir]
  have hroot : (upper.lookup []).any (fun u => u.isDir && !u.hidesBelow) = true ↔
      ∃ e, upper.lookup [] = some (.entry e false) ∧ e.kind = .dir := by
    cases upper.lookup [] with
    | none => simp
    | some u => cases u <;> simp [UpperEntry.isDir, UpperEntry.hidesBelow, LocalEntry.isDir, and_comm]
  rw [forall_entries_iff, hroot]
  simp only [hdir]
  refine ⟨fun h => ⟨h.root, h.parent, fun p u hu => ?_⟩, fun h => ⟨h.1, h.2.1, fun p e hides => h.2.2 p (.entry e hides)⟩⟩
  cases u with
  | whiteout => trivial
  | entry e hides => exact h.links p e hides hu

instance (upper : UpperLayer) : Decidable upper.WellFormed := decidable_of_iff _ upper.wellFormed_iff.symm

end InClusterStorage.Daemon
