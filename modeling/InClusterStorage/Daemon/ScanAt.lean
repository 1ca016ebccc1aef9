import InClusterStorage.Daemon.Replay

/- What a scan has for one path: the operations of one path come from the entry of `upper` with
   that path (`filter_creations`, `filter_writes`, `filter_attrs`), and a path is deleted for a
   whiteout at or above it or for a directory above it that hides it (`mem_deletions`). -/
namespace InClusterStorage.Daemon

open Bytes KeyedSteps Table List LocalEntry

/-! The entry with the path. -/

/-- The operation puts nothing into a directory and removes nothing. -/
def FileOp.InPlace : FileOp → Prop
  | .writeFile _ _ _ | .truncateFile _ _ | .setAttr _ _ _ _ _ | .setXAttr _ _ _ | .removeXAttr _ _ => True
  | _ => False

/-- What comes in the list of creations. -/
def FileOp.Makes : FileOp → Prop
  | .mkdir _ mode _ _ => mode < 0o1000
  | .createFile _ _ _ _ _ | .symlink _ _ _ _ | .unlink _ | .rmdir _ => True
  | _ => False

/-- All operations of an entry have its path. -/
structure Modifications.At (m : Modifications) (p : Path) : Prop where
  creations : ∀ op ∈ m.creations, op.path = p ∧ op.Makes
  changes : ∀ op, op ∈ m.writes ∨ op ∈ m.attrs → op.path = p ∧ op.InPlace

theorem of_mem_scanXAttrs {p : Path} {x b : AList fun _ : String => List UInt8} {op : FileOp}
    (h : op ∈ scanXAttrs p x b) : op.path = p ∧ op.InPlace := by
  simp only [scanXAttrs, mem_append, mem_map] at h
  obtain ⟨_, -, rfl⟩ | ⟨_, -, rfl⟩ := h <;> exact ⟨rfl, trivial⟩

theorem of_mem_writesFrom {p : Path} {offset : Nat} {data : List UInt8} {op : FileOp}
    (h : op ∈ writesFrom p offset data) : op.path = p ∧ op.InPlace := by
  obtain ⟨-, -, rfl⟩ := mem_map.mp h
  exact ⟨rfl, trivial⟩

theorem scanEntry_at (p : Path) (e : LocalEntry) (lStat existing : Option LocalEntry) (prev : Option ManifestEntry) :
    (scanEntry p e lStat existing prev).At p := by
  refine ⟨fun op h => ?_, fun op h => ?_⟩
  · cases existing <;> simp only [scanEntry, scanCommitted, scanNewFile, scanModified, replaces] at h
    all_goals repeat' split at h
    all_goals grind [FileOp.path, FileOp.Makes, goMode]
  · simp only [scanEntry, scanCommitted, scanNewFile, scanModified, setAttr] at h
    repeat' split at h
    all_goals grind [FileOp.path, FileOp.InPlace, of_mem_scanXAttrs, of_mem_writesFrom]

/-- A directory is made where there is none. -/
theorem existing_of_mkdir {p : Path} {e : LocalEntry} {lStat existing : Option LocalEntry} {prev : Option ManifestEntry}
    {mode uid gid : Nat} (h : .mkdir p mode uid gid ∈ (scanEntry p e lStat existing prev).creations) : existing = none := by
  cases existing <;> simp only [scanEntry, scanCommitted, scanNewFile, scanModified, replaces] at h
  all_goals repeat' split at h
  all_goals grind

section
variable {links : Links} {lower : Layer} {upper : UpperLayer} {manifest : CheckpointManifest}

theorem modificationsOf_at (deleted : List Path) (u : (_ : Path) × UpperEntry) :
    (modificationsOf links lower deleted manifest u).At u.1 := by
  obtain ⟨p, v⟩ := u
  cases p with
  | nil => exact ⟨nofun, fun _ h => h.elim nofun nofun⟩
  | cons name parent =>
    cases v with
    | whiteout => exact ⟨nofun, fun _ h => h.elim nofun nofun⟩
    | entry e hides => exact scanEntry_at _ _ _ _ _

/-- What a scan has for a path. -/
def scanAt (links : Links) (lower : Layer) (upper : UpperLayer) (manifest : CheckpointManifest) (p : Path) :
    Modifications :=
  match upper.lookup p with
  | none => {}
  | some u => modificationsOf links lower (scanWhiteoutsAndOpaqueDirs links lower upper manifest).deleted manifest ⟨p, u⟩

/-- The part of a list of lists of operations that belongs to a path. -/
theorem filter_modifications (part : Modifications → List FileOp) (hpart : part {} = [])
    (hat : ∀ m p, Modifications.At m p → ∀ op ∈ part m, op.path = p) (p : Path) :
    ((modifications links lower upper manifest).flatMap part).filter (fun op => op.path = p) =
      part (scanAt links lower upper manifest p) := by
  unfold modifications
  rw [flatMap_map, filter_flatMap fun u op hop => hat _ _ (modificationsOf_at _ u) op hop]
  unfold scanAt
  cases upper.lookup p with
  | none => exact hpart.symm
  | some u => rfl

theorem filter_creations (p : Path) : (creations links lower upper manifest).filter (fun op => op.path = p) =
    (scanAt links lower upper manifest p).creations :=
  filter_modifications _ rfl (fun _ _ h op hop => (h.creations op hop).1) p

theorem filter_writes (p : Path) : (writes links lower upper manifest).filter (fun op => op.path = p) =
    (scanAt links lower upper manifest p).writes :=
  filter_modifications _ rfl (fun _ _ h op hop => (h.changes op (.inl hop)).1) p

/-- The sort keeps the order of operations of one path. -/
theorem filter_attrs (p : Path) : (sortedAttrs links lower upper manifest).filter (fun op => op.path = p) =
    (scanAt links lower upper manifest p).attrs := by
  rw [← filter_modifications Modifications.attrs rfl (fun _ _ h op hop => (h.changes op (.inr hop)).1) p]
  have htotal : Std.Total fun a b : FileOp => b.path.length ≤ a.path.length := ⟨fun a b => le_total _ _⟩
  have htrans : IsTrans FileOp fun a b => b.path.length ≤ a.path.length := ⟨fun a b c hab hbc => hbc.trans hab⟩
  set l := attrs links lower upper manifest with hl
  have hsorted : (l.filter fun op => op.path = p).Pairwise fun a b => b.path.length ≤ a.path.length := by
    refine pairwise_of_forall_mem_list fun a ha b hb => ?_
    have hpa := of_decide_eq_true (mem_filter.mp ha).2
    have hpb := of_decide_eq_true (mem_filter.mp hb).2
    rw [hpa, hpb]
  have hsub : (l.filter fun op => op.path = p).Sublist (l.insertionSort fun a b => b.path.length ≤ a.path.length) :=
    sublist_insertionSort hsorted filter_sublist
  have hsub' := hsub.filter fun op => op.path = p
  rw [filter_filter] at hsub'
  simp only [Bool.and_self] at hsub'
  refine (hsub'.eq_of_length_le ?_).symm
  exact ((perm_insertionSort _ l).filter _).length_eq.le

/-! Deletions. -/

variable {q p : Path} {e : LocalEntry}

theorem mem_removals {which : Path → Bool} :
    (∃ op ∈ removals lower which, op.path = q) ↔ (lower.lookup q).isSome = true ∧ which q = true := by
  unfold removals
  simp only [mem_append, mem_map, mem_filter]
  refine ⟨fun h => ?_, fun h => ?_⟩
  · obtain ⟨op, hop, rfl⟩ := h
    cases hop with
    | inl hop | inr hop =>
      obtain ⟨e, ⟨⟨hmem, hwhich⟩, -⟩, rfl⟩ := hop
      exact ⟨Option.isSome_iff_exists.mpr ⟨e.2, mem_entries.mp hmem⟩, hwhich⟩
  · obtain ⟨e, he⟩ := Option.isSome_iff_exists.mp h.1
    have hmem : (⟨q, e⟩ : (_ : Path) × LocalEntry) ∈ lower.entries := mem_entries.mpr he
    cases hdir : e.isDir with
    | false => exact ⟨.unlink q, .inl ⟨⟨q, e⟩, ⟨⟨hmem, h.2⟩, by simp [hdir]⟩, rfl⟩, rfl⟩
    | true => exact ⟨.rmdir q, .inr ⟨⟨q, e⟩, ⟨⟨hmem, h.2⟩, hdir⟩, rfl⟩, rfl⟩

/-- An entry of `upper` that deletes the path. -/
def Removed (links : Links) (lower : Layer) (upper : UpperLayer) (manifest : CheckpointManifest) (q : Path)
    (u : (_ : Path) × UpperEntry) : Prop :=
  u.1 ≠ [] ∧ (u.2 = .whiteout → u.1 ∉ manifest.whiteouts) ∧ ∃ op ∈ wanted links lower upper manifest u, op.path = q

/-- The path is deleted if it was or `new` holds, and is noted then. -/
def Adds (q : Path) (d d' : Deletions) (new : Prop) : Prop :=
  (q ∈ d'.deleted ↔ ∃ op ∈ d'.ops, op.path = q) ∧ ((∃ op ∈ d'.ops, op.path = q) ↔ (∃ op ∈ d.ops, op.path = q) ∨ new)

/-- `add` puts every path into the list once. -/
theorem foldl_add (ops : List FileOp) (d : Deletions) (hd : q ∈ d.deleted ↔ ∃ op ∈ d.ops, op.path = q) :
    Adds q d (ops.foldl .add d) (∃ op ∈ ops, op.path = q) := by
  induction ops generalizing d with
  | nil => exact ⟨hd, by simp⟩
  | cons op ops ih =>
    have hadd : Adds q d (d.add op) (op.path = q) := by
      unfold Adds Deletions.add
      split
      next hin =>
        refine ⟨hd, ⟨.inl, fun h => h.elim id fun hq => ?_⟩⟩
        rw [hq] at hin
        exact hd.mp hin
      next hout =>
        simp only [mem_cons, mem_append, not_mem_nil, or_false]
        refine ⟨⟨fun h => ?_, fun h => ?_⟩, ⟨fun h => ?_, fun h => ?_⟩⟩
        · cases h with
          | inl h => exact ⟨op, .inr rfl, h.symm⟩
          | inr h =>
            obtain ⟨op', hop', hpath⟩ := hd.mp h
            exact ⟨op', .inl hop', hpath⟩
        · obtain ⟨op', hop', hpath⟩ := h
          cases hop' with
          | inl hop' => exact .inr (hd.mpr ⟨op', hop', hpath⟩)
          | inr heq => exact .inl (by rw [← hpath, heq])
        · obtain ⟨op', hop', hpath⟩ := h
          cases hop' with
          | inl hop' => exact .inl ⟨op', hop', hpath⟩
          | inr heq => exact .inr (by rw [← hpath, heq])
        · cases h with
          | inl h =>
            obtain ⟨op', hop', hpath⟩ := h
            exact ⟨op', .inl hop', hpath⟩
          | inr h => exact ⟨op, .inr rfl, h⟩
    obtain ⟨hdel, hops⟩ := ih (d.add op) hadd.1
    refine ⟨hdel, hops.trans ?_⟩
    rw [hadd.2]
    simp only [mem_cons, exists_eq_or_imp, or_assoc]

section

variable (hq : ¬ (q ∈ manifest.whiteouts ∧ upper.lookup q = some .whiteout))
include hq

theorem foldl_scanDeletion :
    ∀ (l : List ((_ : Path) × UpperEntry)) (d : Deletions), (∀ u ∈ l, u ∈ upper.entries) →
      (q ∈ d.deleted ↔ ∃ op ∈ d.ops, op.path = q) →
      Adds q d (l.foldl (scanDeletion links lower upper manifest) d) (∃ u ∈ l, Removed links lower upper manifest q u) := by
  intro l
  induction l with
  | nil => exact fun d _ hd => ⟨hd, by simp⟩
  | cons u l ih =>
    intro d hl hd
    have hstep : Adds q d (scanDeletion links lower upper manifest d u) (Removed links lower upper manifest q u) := by
      have hadd := foldl_add (wanted links lower upper manifest u) d hd
      obtain ⟨p, v⟩ := u
      cases p with
      | nil => exact ⟨hd, ⟨.inl, fun h => h.elim id fun hr => absurd rfl hr.1⟩⟩
      | cons name parent =>
        cases v with
        | entry e hides =>
          refine ⟨hadd.1, hadd.2.trans (or_congr_right ⟨fun h => ⟨cons_ne_nil _ _, nofun, h⟩, fun h => h.2.2⟩)⟩
        | whiteout =>
          simp only [scanDeletion]
          split
          next hin =>
            -- committed before: only the path itself counts as deleted, and it is not `q`
            have hne : q ≠ name :: parent := by
              intro heq
              subst heq
              exact hq ⟨hin, mem_entries.mp (hl _ mem_cons_self)⟩
            refine ⟨?_, ⟨.inl, fun h => h.elim id fun hr => absurd hin (hr.2.1 rfl)⟩⟩
            rw [← hd]
            simp [hne]
          next hout =>
            exact ⟨hadd.1, hadd.2.trans (or_congr_right ⟨fun h => ⟨cons_ne_nil _ _, fun _ => hout, h⟩, fun h => h.2.2⟩)⟩
    obtain ⟨hdel, hops⟩ := ih _ (fun u' hu' => hl u' (mem_cons_of_mem _ hu')) hstep.1
    refine ⟨hdel, hops.trans ?_⟩
    rw [hstep.2]
    simp only [mem_cons, exists_eq_or_imp, or_assoc]

/-- A path is deleted if some entry of `upper` deletes it. -/
theorem mem_deletions :
    (q ∈ (scanWhiteoutsAndOpaqueDirs links lower upper manifest).deleted ↔
        ∃ op ∈ deletions links lower upper manifest, op.path = q) ∧
      ((∃ op ∈ deletions links lower upper manifest, op.path = q) ↔
        ∃ u ∈ upper.entries, Removed links lower upper manifest q u) := by
  have h := @foldl_scanDeletion links lower upper manifest q hq upper.entries {} (fun _ hu => hu) (by simp)
  refine ⟨h.1, h.2.trans ?_⟩
  simp

end

theorem of_removed {u : (_ : Path) × UpperEntry} (h : Removed links lower upper manifest q u) :
    u.2 = .whiteout ∧ u.1 <:+ q ∨
      (∃ e, u.2 = .entry e true ∧ e.kind = .dir) ∧ u.1 <:+ q ∧ u.1 ≠ q ∧ upperGone links upper q = true := by
  obtain ⟨-, -, hwanted⟩ := h
  obtain ⟨p, v⟩ := u
  cases v with
  | whiteout =>
    refine .inl ⟨rfl, ?_⟩
    obtain ⟨op, hop, hpath⟩ := hwanted
    simp only [wanted] at hop
    split at hop
    · split at hop
      · cases mem_append.mp hop with
        | inl hop => exact isSuffixOf_iff_suffix.mp (mem_removals.mp ⟨op, hop, hpath⟩).2
        | inr hop =>
          cases mem_singleton.mp hop
          exact hpath ▸ suffix_refl _
      · cases mem_singleton.mp hop
        exact hpath ▸ suffix_refl _
    · cases mem_singleton.mp hop
      exact hpath ▸ suffix_refl _
  | entry e hides =>
    right
    simp only [wanted] at hwanted
    split at hwanted
    next hcond =>
      have hwhich := (mem_removals.mp hwanted).2
      simp only [Bool.and_eq_true] at hcond hwhich
      obtain ⟨⟨hdir, hhides⟩, -⟩ := hcond
      obtain ⟨⟨hsuffix, hne⟩, hgone⟩ := hwhich
      exact ⟨⟨e, by rw [hhides], isDir_iff.mp hdir⟩, isSuffixOf_iff_suffix.mp hsuffix,
        (of_decide_eq_true hne).symm, hgone⟩
    · obtain ⟨op, hop, -⟩ := hwanted
      cases hop

theorem upperGone_of_lookup {v : UpperEntry} (h : upper.lookup q = some v) : upperGone links upper q = false := by
  simp [upperGone, h]

/-- Where nothing of `lower` is hidden, nothing is deleted. -/
theorem not_removed_of_visible (hp : upper.lookup p = none) (hvisible : hidden upper p = false)
    (u : (_ : Path) × UpperEntry) (hmem : u ∈ upper.entries) : ¬ Removed links lower upper manifest p u := by
  intro hr
  have hl : upper.lookup u.1 = some u.2 := mem_entries.mp hmem
  have hnot (a) (hsuffix : a <:+ p) (hne : a ≠ p) (v) (hv : upper.lookup a = some v) : v.hidesBelow = false := by
    by_contra hhides
    have : hidden upper p = true := anyAbove_iff.mpr ⟨a, hsuffix, hne, by rw [hv]; simpa using hhides⟩
    rw [hvisible] at this
    cases this
  cases of_removed hr with
  | inl h =>
    obtain ⟨hwhite, hsuffix⟩ := h
    have hne : u.1 ≠ p := fun heq => by rw [heq, hp] at hl; cases hl
    have hhides := hnot u.1 hsuffix hne u.2 hl
    rw [hwhite] at hhides
    cases hhides
  | inr h =>
    obtain ⟨⟨e, hentry, -⟩, hsuffix, hne, -⟩ := h
    have hhides := hnot u.1 hsuffix hne u.2 hl
    rw [hentry, UpperEntry.hidesBelow, Bool.or_true] at hhides
    cases hhides

theorem removed_of_whiteout (hne : p ≠ []) (hnew : p ∉ manifest.whiteouts) :
    Removed links lower upper manifest p ⟨p, .whiteout⟩ := by
  refine ⟨hne, fun _ => hnew, ?_⟩
  simp only [wanted]
  split
  · split
    · exact ⟨.rmdir p, mem_append_right _ (mem_singleton.mpr rfl), rfl⟩
    · exact ⟨.unlink p, mem_singleton.mpr rfl, rfl⟩
  · exact ⟨.unlink p, mem_singleton.mpr rfl, rfl⟩

theorem removed_of_hides {a : Path} (hne : a ≠ []) (hdir : e.kind = .dir)
    (hnew : a ∉ manifest.opaqueDirs) (hsuffix : a <:+ q) (hbelow : a ≠ q) (hlower : (lower.lookup q).isSome = true)
    (hgone : upperGone links upper q = true) : Removed links lower upper manifest q ⟨a, .entry e true⟩ := by
  refine ⟨hne, nofun, ?_⟩
  have hcond : (e.isDir && true && decide (a ∉ manifest.opaqueDirs)) = true := by
    simp [isDir_iff.mpr hdir, hnew]
  simp only [wanted, hcond, if_true]
  apply mem_removals.mpr
  refine ⟨hlower, ?_⟩
  simp only [Bool.and_eq_true]
  exact ⟨⟨isSuffixOf_iff_suffix.mpr hsuffix, decide_eq_true hbelow.symm⟩, hgone⟩

/-- Deletions are calls of `Unlink` and `Rmdir`. -/
def FileOp.Removes (op : FileOp) : Prop := op = .unlink op.path ∨ op = .rmdir op.path

theorem removes_of_mem_wanted {u : (_ : Path) × UpperEntry} {op : FileOp} (h : op ∈ wanted links lower upper manifest u) :
    op.Removes := by
  have hremovals (which) (hop : op ∈ removals lower which) : op.Removes := by
    unfold removals at hop
    rw [mem_append, mem_map, mem_map] at hop
    cases hop with
    | inl hop =>
      obtain ⟨e, -, rfl⟩ := hop
      exact .inl rfl
    | inr hop =>
      obtain ⟨e, -, rfl⟩ := hop
      exact .inr rfl
  unfold wanted at h
  split at h
  · split at h
    · split at h
      · cases mem_append.mp h with
        | inl h => exact hremovals _ h
        | inr h =>
          cases mem_singleton.mp h
          exact .inr rfl
      · cases mem_singleton.mp h
        exact .inl rfl
    · cases mem_singleton.mp h
      exact .inl rfl
  · split at h
    · exact hremovals _ h
    · cases h

theorem removes_of_mem_deletions {op : FileOp} (h : op ∈ deletions links lower upper manifest) : op.Removes := by
  have hadd : ∀ (ops : List FileOp) (d : Deletions), (∀ op ∈ ops, op.Removes) → (∀ op ∈ d.ops, op.Removes) →
      ∀ op ∈ (ops.foldl Deletions.add d).ops, op.Removes := by
    intro ops
    induction ops with
    | nil => exact fun d _ hd => hd
    | cons op ops ih =>
      intro d hops hd
      apply ih _ (fun op' hop' => hops op' (mem_cons_of_mem _ hop'))
      unfold Deletions.add
      split
      · exact hd
      intro op' hop'
      cases mem_append.mp hop' with
      | inl hop' => exact hd op' hop'
      | inr hop' =>
        cases mem_singleton.mp hop'
        exact hops op mem_cons_self
  have hscan : ∀ (l : List ((_ : Path) × UpperEntry)) (d : Deletions), (∀ op ∈ d.ops, op.Removes) →
      ∀ op ∈ (l.foldl (scanDeletion links lower upper manifest) d).ops, op.Removes := by
    intro l
    induction l with
    | nil => exact fun d hd => hd
    | cons u l ih =>
      intro d hd
      apply ih
      unfold scanDeletion
      split
      · exact hd
      · split
        · exact hd
        · exact hadd _ d (fun _ => removes_of_mem_wanted) hd
      · exact hadd _ d (fun _ => removes_of_mem_wanted) hd
  exact hscan upper.entries {} nofun op h

/-! What a scan has for an entry. -/

section

variable {hides : Bool} (hu : upper.WellFormed) (hp : upper.lookup p = some (.entry e hides))
include hu hp

/-- What `upper` has is not deleted. -/
theorem not_removed_of_entry (u : (_ : Path) × UpperEntry) (hmem : u ∈ upper.entries) :
    ¬ Removed links lower upper manifest p u := by
  intro hr
  have hl : upper.lookup u.1 = some u.2 := mem_entries.mp hmem
  cases of_removed hr with
  | inl h =>
    obtain ⟨hwhite, hsuffix⟩ := h
    rw [hwhite] at hl
    by_cases heq : u.1 = p
    · rw [heq, hp] at hl
      cases hl
    · obtain ⟨d, hides', hd, -⟩ := hu.above hp hsuffix heq
      rw [hd] at hl
      cases hl
  | inr h =>
    rw [upperGone_of_lookup hp] at h
    cases h.2.2.2

theorem not_mem_deleted : p ∉ (scanWhiteoutsAndOpaqueDirs links lower upper manifest).deleted := by
  have hskip : ¬ (p ∈ manifest.whiteouts ∧ upper.lookup p = some .whiteout) := by
    rw [hp]
    exact fun h => nomatch h.2
  obtain ⟨hdeleted, hremoved⟩ := @mem_deletions links lower upper manifest p hskip
  rw [hdeleted, hremoved]
  rintro ⟨u, hmem, hr⟩
  exact not_removed_of_entry hu hp u hmem hr

theorem scanAt_of_entry (hne : p ≠ []) :
    scanAt links lower upper manifest p =
      scanEntry p e (lstat links lower p) (lstat links lower p) (manifest.files.lookup p) := by
  cases p with
  | nil => exact absurd rfl hne
  | cons name parent =>
    simp only [scanAt, hp, modificationsOf, if_neg (not_mem_deleted hu hp)]

end

theorem scanAt_of_no_entry (hp : ∀ e hides, upper.lookup p ≠ some (.entry e hides)) :
    scanAt links lower upper manifest p = {} := by
  unfold scanAt
  split
  · rfl
  next u hl =>
    cases u with
    | entry e hides => exact absurd hl (hp e hides)
    | whiteout => cases p <;> rfl

theorem scanAt_root : scanAt links lower upper manifest [] = {} := by
  unfold scanAt
  split <;> rfl

end

end InClusterStorage.Daemon
