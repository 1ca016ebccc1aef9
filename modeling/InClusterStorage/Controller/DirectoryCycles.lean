import InClusterStorage.Lib.Forest
import InClusterStorage.Lib.Runs
import InClusterStorage.Controller.DirectoryTree
import InClusterStorage.Controller.FileCounts

/- Directory cycles. `Rename` looks for the directory it moves on the way from the new
   parent to the root, but it walks over the parents it remembers, not over the rows. A
   parent that is not remembered, as after a restart, ends the walk; and one that a
   rename has changed before its transaction failed leads it astray.

   `rooted_iff`: along every history of calls and restarts, every directory reaches the
   root exactly if no rename moves a directory below itself; and none does where the
   parents on the way up from the new parent are remembered as they stand in the rows. -/
namespace InClusterStorage.Controller

open Volume Table Option Renaming Runs

namespace Volume

/-- Files without links. -/
def orphans (v : Volume) : List Nat :=
  (v.inodes.entries.filter fun e => !e.2.isDir && decide (e.2.nlink = 0)).map Sigma.fst

/-- `LoadFromBackend`: the rows are what is left, and `next` is the number to go on with.
`ok` says whether the transaction that deletes the orphans can be committed. -/
def restart (next : Nat) (ok : Bool) (v : Volume) : Volume :=
  { v with
    nextInode := next
    dirParents := AList.singleton v.rootInodeID v.rootInodeID
    handles := ∅
    openInodes := ∅
    nextFh := 0
    staging := { requirePermanent := v.staging.requirePermanent } }.commit
      (if ok then v.orphans.map Change.deleteInode else [])

/-- All numbers in use are below `next`. -/
def numbersBelow (next : Nat) (v : Volume) : Bool :=
  (v.inodes.entries.all fun e => decide (e.1 < next)) && v.dirEntries.entries.all fun e => decide (e.2.ino < next)

def dirParent (v : Volume) (ino : Nat) : Option Nat :=
  match v.inodes.lookup ino with
  | some row => if row.isDir then some row.parentIno else none
  | none => none

end Volume

inductive TreeEvent where
  | call (call : NamespaceCall) (ok : Bool)
  | restart (next : Nat) (ok : Bool)
  deriving DecidableEq, Repr

def Volume.treeStep (v : Volume) : TreeEvent → Option Volume
  | .call call ok => (v.serve ok call).map Prod.fst
  | .restart next ok => if v.numbersBelow next then some (v.restart next ok) else none

/-- `b` is on the way up from `a`. -/
def Volume.Below (v : Volume) (a b : Nat) : Prop := Forest.Below v.dirParent v.rootInodeID a b

def Rooted (v : Volume) : Prop :=
  ∀ ino row, v.inodes.lookup ino = some row → row.isDir = true → v.Below ino v.rootInodeID

def Volume.NotBelowItself (v : Volume) : TreeEvent → Prop
  | .call call ok => ∀ m, v.does ok call = .renamed m → m.between = true → ¬ v.Below m.newParent m.childIno
  | .restart _ _ => True

/-- On the way up from the parent of the new parent, the parents are remembered. -/
def Volume.Remembered (v : Volume) : TreeEvent → Prop
  | .call call ok => ∀ m, v.does ok call = .renamed m → m.between = true → ∀ a p,
      v.Below m.newParent a → a ≠ m.newParent → a ≠ v.rootInodeID → v.dirParent a = some p →
        v.dirParents.lookup a = some p
  | .restart _ _ => True

variable {v v' w : Volume}

/-! Parents. -/

theorem dirParent_eq_some {ino p : Nat} :
    v.dirParent ino = some p ↔ ∃ row, v.inodes.lookup ino = some row ∧ row.isDir = true ∧ row.parentIno = p := by
  unfold dirParent
  split
  · rename_i row hrow
    simp [hrow, and_left_comm]
  · rename_i hrow
    simp [hrow]

theorem Placed.ne_zero (hv : Placed v) {a : Nat} (h : v.IsDir a) : a ≠ 0 := by
  rintro rfl
  obtain ⟨row, hrow, -⟩ := h
  cases hrow.symm.trans hv.zero

theorem Placed.parent_isDir (hv : Placed v) {ino p : Nat} (h : Forest.Parent v.dirParent v.rootInodeID ino p) :
    v.IsDir p ∧ p ≠ ino := by
  obtain ⟨row, hrow, hdir, rfl⟩ := dirParent_eq_some.1 h.2
  obtain ⟨key, de, hkey, hino, hpar⟩ := hv.named ino row hrow hdir h.1
  have hself := hv.noSelf key de hkey
  rw [hpar]
  exact ⟨hv.parents ⟨key, de⟩ (mem_entries.2 hkey), fun heq => hself (hino.trans heq.symm)⟩

variable {a : Nat} {d : Done} {m : Renaming}

/-- A call keeps the parents of the directories that are left, but for the one it moves. -/
theorem Outcome.parent_kept (h : Outcome v v' d) (hv : Placed v) {b : Nat} (ha : v'.IsDir a)
    (hmoved : ∀ m, d = .renamed m → a ≠ m.childIno) (hp : Forest.Parent v.dirParent v.rootInodeID a b) :
    Forest.Parent v'.dirParent v'.rootInodeID a b ∧ v'.IsDir b := by
  obtain ⟨row', hrow', hdir'⟩ := ha
  obtain ⟨row, hrow, hdir, rfl⟩ := dirParent_eq_some.1 hp.2
  have hparent : Forest.Parent v'.dirParent v'.rootInodeID a row.parentIno := by
    refine ⟨h.rootInodeID ▸ hp.1, dirParent_eq_some.2 ⟨row', hrow', hdir', ?_⟩⟩
    obtain ⟨key, de, -, -, -, ⟨hnew, -⟩ | ⟨m, hd, hchild, -⟩⟩ | hstays := h.dirPlace hv hrow' hdir'
    · cases hrow.symm.trans hnew
    · exact absurd hchild (hmoved m hd)
    · obtain ⟨row₀, hrow₀, -, hpar⟩ := hstays.row
      cases hrow.symm.trans hrow₀
      exact hpar
  exact ⟨hparent, ((h.placed hv).parent_isDir hparent).1⟩

theorem Renaming.childInode_isDir (hb : m.between = true) : m.childInode.isDir = true := by
  simp only [between, Bool.and_eq_true] at hb
  exact hb.1

theorem Renames.parents (h : Renames v v' m w) (hv : Placed v) (honce : DirsOnce v)
    (hdir : m.childInode.isDir = true) :
    Forest.Parent v.dirParent v.rootInodeID m.childIno m.oldParent ∧
      Forest.Parent v'.dirParent v.rootInodeID m.childIno m.newParent := by
  obtain ⟨oldDe, hold, hino⟩ := h.reads.oldEntry
  have hne : m.childIno ≠ v.rootInodeID := hino ▸ hv.rootFree ⟨_, oldDe⟩ (mem_entries.2 hold)
  constructor
  · refine ⟨hne, dirParent_eq_some.2 ⟨_, h.reads.child, hdir, ?_⟩⟩
    obtain ⟨key, de, hkey, hde, hpar⟩ := hv.named _ _ h.reads.child hdir hne
    rw [hpar, key_unique (honce _ _ h.reads.child hdir) hkey hde hold hino]
  · refine ⟨hne, dirParent_eq_some.2 ⟨m.childAfter, ?_, m.childAfter_isDir.trans hdir, ?_⟩⟩
    · rw [h.inodes, lookup_inodesAfter, if_neg (fun hand => h.child_ne_newParent hv hand.1),
        if_neg (h.child_ne_oldParent hv), if_pos rfl]
    · simp [childAfter, hdir]

/-! Ways to the root. -/

theorem Outcome.isDir_iff (h : Outcome v v' d) {row : Inode} (hrow : v.inodes.lookup a = some row)
    (hv : Sound v) (ha : v'.IsDir a) : row.isDir = true := by
  obtain ⟨row', hrow', hdir'⟩ := ha
  exact ((h.keepsKinds hv).eq hv hrow hrow').symm.trans hdir'

section

variable (h : Outcome v v' d) (hv : Placed v) (honce : DirsOnce v) (hr : Rooted v)
  (hbelow : ∀ m, d = .renamed m → m.between = true → ¬ v.Below m.newParent m.childIno)
include h hv honce hr hbelow

/-- The directories that were there keep their ways to the root. -/
theorem Outcome.below_root (ha : v'.IsDir a) (hroot : v.Below a v.rootInodeID) : v'.Below a v'.rootInodeID := by
  have hkeep := fun a b => h.parent_kept hv (a := a) (b := b)
  unfold Volume.Below
  rw [h.rootInodeID] at hkeep ⊢
  by_cases hmoves : ∃ m, d = .renamed m
  · obtain ⟨m, rfl⟩ := hmoves
    cases h.effect with
    | renamed _ w renames =>
      have hkeep' := fun a b (ha : v'.IsDir a) (hne : a ≠ m.childIno) hp =>
        hkeep a b ha (fun m' hm => by cases hm; exact hne) hp
      refine Forest.below_moved hkeep' hroot ha fun hchild => ?_
      have hdir := h.isDir_iff renames.reads.child hv.toSound hchild
      obtain ⟨hold, hnew⟩ := renames.parents hv honce hdir
      -- the new parent is not below the directory: within one parent, the way would close
      have hnot : ¬ v.Below m.newParent m.childIno := by
        by_cases hp : m.newParent = m.oldParent
        · rw [hp]
          intro hback
          exact Forest.no_loop (hr _ _ renames.reads.child hdir) (Relation.TransGen.head' hold hback)
        · exact hbelow m rfl (by simp [between, hdir, hp])
      have hnp := hr _ _ renames.reads.newParent renames.reads.newParentDir
      exact .head hnew (Forest.below_beside hkeep' hnp renames.newParent_isDir hnot)
  · exact Forest.below_moved (c := 0) (fun a b ha _ hp => hkeep a b ha (fun m hm => absurd ⟨m, hm⟩ hmoves) hp) hroot ha
      fun hzero => absurd rfl ((h.placed hv).ne_zero hzero)

theorem Outcome.rooted : Rooted v' := by
  intro a row' hrow' hdir'
  have ha : v'.IsDir a := ⟨row', hrow', hdir'⟩
  cases hrow : v.inodes.lookup a with
  | some row => exact h.below_root hv honce hr hbelow ha (hr a row hrow (h.isDir_iff hrow hv.toSound ha))
  | none =>
    -- a new directory hangs below one that was there
    by_cases hroot : a = v'.rootInodeID
    · rw [hroot]
      exact .refl
    obtain ⟨key, de, -, -, hpar, ⟨-, row, hkey⟩ | ⟨m, rfl, hchild, -⟩⟩ | hstays := h.dirPlace hv hrow' hdir'
    · have hp : Forest.Parent v'.dirParent v'.rootInodeID a key.1 :=
        ⟨hroot, dirParent_eq_some.2 ⟨row', hrow', hdir', hpar⟩⟩
      have hkeyDir := ((h.placed hv).parent_isDir hp).1
      exact .head hp (h.below_root hv honce hr hbelow hkeyDir (hr _ row hkey (h.isDir_iff hkey hv.toSound hkeyDir)))
    · cases h.effect with
      | renamed _ w renames =>
        rw [hchild, renames.reads.child] at hrow
        cases hrow
    · obtain ⟨row, hrow', -⟩ := hstays.row
      cases hrow.symm.trans hrow'

end

/-- A directory that was moved below itself does not reach the root any more. -/
theorem Outcome.not_rooted (h : Outcome v v' (.renamed m)) (hv : Placed v) (honce : DirsOnce v)
    (hb : m.between = true) (hbelow : v.Below m.newParent m.childIno) : ¬ Rooted v' := by
  intro hr'
  have hdir := childInode_isDir hb
  cases h.effect with
  | renamed _ w renames =>
    have hkeep := fun a b (ha : v'.IsDir a) (hne : a ≠ m.childIno) =>
      h.parent_kept hv (b := b) ha (fun m' hm => by cases hm; exact hne)
    obtain ⟨-, hnew⟩ := renames.parents hv honce hdir
    rw [← h.rootInodeID] at hnew
    rw [h.rootInodeID] at hkeep
    have hback := Forest.below_until hkeep hbelow renames.newParent_isDir
    obtain ⟨row', hrow', hdir', -⟩ := dirParent_eq_some.1 hnew.2
    rw [← h.rootInodeID] at hback
    exact Forest.no_loop (hr' _ row' hrow' hdir') (Relation.TransGen.head' hnew hback)

/-! The walk of the cycle check. -/

/-- Over parents that are remembered as they are, the walk finds what is above. -/
theorem isBelow_ne_false (hv : Placed v) {child : Nat} (hchild : v.IsDir child) (hroot : child ≠ v.rootInodeID)
    {parents : AList fun _ : Nat => Nat} : ∀ {fuel a : Nat}, v.Below a child →
      (∀ b p, v.Below a b → b ≠ v.rootInodeID → v.dirParent b = some p → parents.lookup b = some p) →
      isBelow child v.rootInodeID parents fuel a ≠ some false := by
  intro fuel
  induction fuel with
  | zero =>
    intro a _ _
    rw [isBelow]
    simp
  | succ fuel ih =>
    intro a hbelow hknown
    rw [isBelow]
    obtain rfl | ⟨p, hp, hbelow'⟩ := Relation.ReflTransGen.cases_head hbelow
    · -- the walk has arrived
      rw [if_neg (not_or.2 ⟨hv.ne_zero hchild, hroot⟩), if_pos rfl]
      simp
    · obtain ⟨row, hrow, hdir, -⟩ := dirParent_eq_some.1 hp.2
      rw [if_neg (not_or.2 ⟨hv.ne_zero ⟨row, hrow, hdir⟩, hp.1⟩)]
      split
      · simp
      rw [hknown a p .refl hp.1 hp.2]
      show (if p = a then some false else isBelow child v.rootInodeID parents fuel p) ≠ some false
      rw [if_neg (hv.parent_isDir hp).2]
      exact ih hbelow' fun b q hb => hknown b q (.head hp hb)

/-- A rename that finds the parents remembered does not move a directory below itself. -/
theorem Renames.not_below (h : Renames v v' m w) (hv : Placed v) (hb : m.between = true)
    (hknown : ∀ a p, v.Below m.newParent a → a ≠ m.newParent → a ≠ v.rootInodeID → v.dirParent a = some p →
      v.dirParents.lookup a = some p) : ¬ v.Below m.newParent m.childIno := by
  intro hbelow
  have hdir := childInode_isDir hb
  obtain ⟨oldDe, hold, hino⟩ := h.reads.oldEntry
  have hroot : m.childIno ≠ v.rootInodeID := hino ▸ hv.rootFree ⟨_, oldDe⟩ (mem_entries.2 hold)
  obtain ⟨fuel, hwalk⟩ := h.accepted.notBelow hb
  rw [h.loads.rootInodeID] at hwalk
  refine isBelow_ne_false hv ⟨_, h.reads.child, hdir⟩ hroot hbelow (fun a p ha hne hp => ?_) hwalk
  obtain ⟨row, hrow, -, hpar⟩ := dirParent_eq_some.1 hp
  by_cases hself : a = m.newParent
  · -- the row of the new parent has just been loaded
    subst hself
    cases hrow.symm.trans h.reads.newParent
    have hzero : m.newParentInode.parentIno ≠ 0 := by
      intro h0
      rw [← hpar, h0] at hp
      exact hv.ne_zero (hv.parent_isDir ⟨hne, hp⟩).1 rfl
    rw [h.accepted.loaded hzero, hpar]
  · obtain hsame | ⟨row', hrow', hload⟩ := h.loads.parents a
    · rw [hsame]
      exact hknown a p ha hself hne hp
    · cases hrow.symm.trans hrow'
      rw [hload, hpar]

/-! Restarts. -/

theorem commit_deleteInodes (inos : List Nat) : ∀ (v : Volume) (i : Nat),
    (v.commit (inos.map Change.deleteInode)).inodes.lookup i = if i ∈ inos then none else v.inodes.lookup i := by
  induction inos with
  | nil => intro v i; simp
  | cons ino inos ih =>
    intro v i
    rw [List.map_cons, commit_cons, ih, apply, lookup_erase]
    by_cases hi : i = ino <;> simp [hi]

theorem commit_deleteInodes_dirEntries (inos : List Nat) : ∀ v : Volume,
    (v.commit (inos.map Change.deleteInode)).dirEntries = v.dirEntries := by
  induction inos with
  | nil => exact fun _ => rfl
  | cons ino inos ih => exact fun v => ih _

variable (next : Nat) (ok : Bool)

theorem restart_rows (v : Volume) :
    (v.restart next ok).dirEntries = v.dirEntries ∧
    (∀ i row, (v.restart next ok).inodes.lookup i = some row → v.inodes.lookup i = some row) ∧
    ∀ i row, v.inodes.lookup i = some row → row.isDir = true → (v.restart next ok).inodes.lookup i = some row := by
  unfold restart
  cases ok with
  | false => exact ⟨rfl, fun _ _ h => h, fun _ _ h _ => h⟩
  | true =>
    simp only [if_true, commit_deleteInodes, commit_deleteInodes_dirEntries]
    refine ⟨trivial, fun i row hi => ?_, fun i row hi hdir => ?_⟩
    · split_ifs at hi
      exact hi
    · rw [if_neg, hi]
      intro hmem
      simp only [orphans, List.mem_map, List.mem_filter] at hmem
      obtain ⟨e, ⟨he, horphan⟩, rfl⟩ := hmem
      cases hi.symm.trans (mem_entries.1 he)
      simp [hdir] at horphan

theorem restart_framed (v : Volume) :
    (v.restart next ok).rootInodeID = v.rootInodeID ∧ next ≤ (v.restart next ok).nextInode := by
  have hframe := commit_framed (if ok then v.orphans.map Change.deleteInode else [])
    { v with
      nextInode := next
      dirParents := AList.singleton v.rootInodeID v.rootInodeID
      handles := ∅
      openInodes := ∅
      nextFh := 0
      staging := { requirePermanent := v.staging.requirePermanent } }
  exact ⟨hframe.rootInodeID, hframe.nextInode⟩

theorem numbersBelow_iff {next : Nat} : v.numbersBelow next = true ↔
    (∀ e ∈ v.inodes.entries, e.1 < next) ∧ ∀ e ∈ v.dirEntries.entries, e.2.ino < next := by
  simp [numbersBelow]

theorem restart_sound {next : Nat} (ok : Bool) (hv : Sound v) (hnext : v.numbersBelow next = true) :
    Sound (v.restart next ok) := by
  obtain ⟨hentries, hrows, hdirs⟩ := restart_rows next ok v
  obtain ⟨hroot, hle⟩ := restart_framed next ok v
  obtain ⟨hinos, hents⟩ := numbersBelow_iff.1 hnext
  refine hv.of_dirs hentries hroot (fun i row hi => ?_) hdirs fun e he => lt_of_lt_of_le (hents e he) hle
  exact lt_of_lt_of_le (hinos ⟨i, row⟩ (mem_entries.2 (hrows i row hi))) hle

theorem restart_placed {next : Nat} (ok : Bool) (hv : Placed v) (hnext : v.numbersBelow next = true) :
    Placed (v.restart next ok) := by
  obtain ⟨hentries, hrows, -⟩ := restart_rows next ok v
  obtain ⟨hroot, -⟩ := restart_framed next ok v
  refine ⟨restart_sound ok hv.toSound hnext, ?_, fun key de hkey => ?_, fun i row hi hd hne => ?_⟩
  · cases hzero : (v.restart next ok).inodes.lookup 0 with
    | none => rfl
    | some row => cases hv.zero.symm.trans (hrows 0 row hzero)
  · rw [hentries] at hkey
    exact hv.noSelf key de hkey
  · rw [hroot] at hne
    rw [hentries]
    exact hv.named i row (hrows i row hi) hd hne

theorem restart_rooted (hr : Rooted v) : Rooted (v.restart next ok) := by
  obtain ⟨-, hrows, hdirs⟩ := restart_rows next ok v
  intro i row hi hdir
  unfold Volume.Below
  rw [(restart_framed next ok v).1]
  refine Relation.ReflTransGen.mono (fun a b hp => ?_) _ _ (hr i row (hrows i row hi) hdir)
  obtain ⟨row, hrow, hd, hpar⟩ := dirParent_eq_some.1 hp.2
  exact ⟨hp.1, dirParent_eq_some.2 ⟨row, hdirs a row hrow hd, hd, hpar⟩⟩

/-! Histories. -/

/-- What every event keeps. -/
structure Hung (v : Volume) : Prop extends Placed v where
  once : DirsOnce v

theorem init_hung (closeToOpen requirePermanent : Bool) : Hung (init closeToOpen requirePermanent) where
  toPlaced := init_placed closeToOpen requirePermanent
  once _ _ _ _ := Nat.zero_le 1

theorem init_rooted (closeToOpen requirePermanent : Bool) : Rooted (init closeToOpen requirePermanent) := by
  intro i row hi _
  rw [(init_inodes hi).1]
  exact .refl

/-- One event keeps the ways to the root exactly if it moves no directory below itself. -/
theorem treeStep_rooted {e : TreeEvent} (hv : Hung v) (hr : Rooted v) (h : v.treeStep e = some v') :
    Hung v' ∧ (Rooted v' ↔ v.NotBelowItself e) := by
  cases e with
  | call call ok =>
    obtain ⟨⟨w, r⟩, hserve, rfl⟩ := map_eq_some_iff.1 h
    have hout := serve_outcome hserve
    refine ⟨⟨hout.placed hv.toPlaced, hout.dirsOnce hv.toSound hv.once⟩, fun hr' m hdone hb hbelow => ?_,
      hout.rooted hv.toPlaced hv.once hr⟩
    rw [hdone] at hout
    exact hout.not_rooted hv.toPlaced hv.once hb hbelow hr'
  | restart next ok =>
    simp only [treeStep, ite_none_right_eq_some, some.injEq] at h
    obtain ⟨hnext, rfl⟩ := h
    refine ⟨⟨restart_placed ok hv.toPlaced hnext, fun i row hi hdir => ?_⟩,
      iff_of_true (restart_rooted next ok hr) trivial⟩
    obtain ⟨hentries, hrows, -⟩ := restart_rows next ok v
    rw [refs, hentries]
    exact hv.once i row (hrows i row hi) hdir

theorem notBelowItself_of_remembered {e : TreeEvent} (hv : Hung v) (h : v.treeStep e = some v')
    (hrem : v.Remembered e) : v.NotBelowItself e := by
  cases e with
  | call call ok =>
    intro m hdone hb
    obtain ⟨⟨w, r⟩, hserve, rfl⟩ := map_eq_some_iff.1 h
    have hout := serve_outcome hserve
    rw [hdone] at hout
    cases hout.effect with
    | renamed _ w renames => exact renames.not_below hv.toPlaced hb (hrem m hdone hb)
  | restart next ok => trivial

/-- **Directory cycles.** Along every history of calls, of which any may fail at its
transaction, and of restarts, every directory reaches the root after each of them exactly
if no rename moves a directory below itself. None does where every rename between two
directories finds the parents on the way up from the new parent remembered. -/
theorem rooted_iff (closeToOpen requirePermanent : Bool) (events : List TreeEvent) :
    (Throughout treeStep Rooted (init closeToOpen requirePermanent) events ↔
      Allowed treeStep NotBelowItself (init closeToOpen requirePermanent) events) ∧
    (Allowed treeStep Remembered (init closeToOpen requirePermanent) events →
      Throughout treeStep Rooted (init closeToOpen requirePermanent) events) := by
  have hinit := init_hung closeToOpen requirePermanent
  have hrooted := init_rooted closeToOpen requirePermanent
  constructor
  · exact throughout_iff_allowed (I := Hung) (fun v e v' hv hr h => treeStep_rooted hv hr h) events hinit hrooted
  · refine Allowed.throughout (I := fun v => Hung v ∧ Rooted v) (fun v hv => hv.2) ?_ ⟨hinit, hrooted⟩
    intro v e v' hv hrem h
    obtain ⟨hung, hiff⟩ := treeStep_rooted hv.1 hv.2 h
    exact ⟨hung, hiff.2 (notBelowItself_of_remembered hv.1 h hrem)⟩

/-- Three directories, one in the other. After a restart the outermost is moved into the
innermost. -/
def restartRun : List TreeEvent :=
  [.call (.mkdir 1 [97] 0) true, .call (.mkdir 8 [98] 0) true, .call (.mkdir 16 [99] 0) true, .restart 32 true,
    .call (.rename 1 [97] 24 [97]) true]

/-- The rename of the middle one to the root fails, and is remembered. -/
def failedRun : List TreeEvent :=
  [.call (.mkdir 1 [97] 0) true, .call (.mkdir 8 [98] 0) true, .call (.mkdir 16 [99] 0) true,
    .call (.rename 8 [98] 1 [98]) false, .call (.rename 1 [97] 24 [97]) true]

theorem not_rooted_of_loop {b c : Nat} (hab : v.dirParent a = some b) (hbc : v.dirParent b = some c)
    (hca : v.dirParent c = some a) (ha : a ≠ v.rootInodeID) (hb : b ≠ v.rootInodeID) (hc : c ≠ v.rootInodeID) :
    ¬ Rooted v := by
  intro hr
  obtain ⟨row, hrow, hdir, -⟩ := dirParent_eq_some.1 hab
  apply Forest.no_loop (hr a row hrow hdir)
  apply Relation.TransGen.head ⟨ha, hab⟩
  apply Relation.TransGen.head ⟨hb, hbc⟩
  exact Relation.TransGen.single ⟨hc, hca⟩

/-- **A cycle**: in both histories the three directories are their own ancestors, and the
root is empty. -/
theorem rooted_violated :
    (∃ v, Reach (· = init true false) treeStep always v ∧ v.dirParent 8 = some 24 ∧
      v.dirParent 24 = some 16 ∧ v.dirParent 16 = some 8 ∧ v.isEmptyDir 1 = true ∧ ¬ Rooted v) ∧
    ∃ v, Reach (· = init true false) treeStep always v ∧ v.dirParent 8 = some 24 ∧
      v.dirParent 24 = some 16 ∧ v.dirParent 16 = some 8 ∧ v.isEmptyDir 1 = true ∧ ¬ Rooted v := by
  have hloop {v : Volume} (h8 : v.dirParent 8 = some 24) (h24 : v.dirParent 24 = some 16) (h16 : v.dirParent 16 = some 8)
      (hroot : v.rootInodeID = 1) : ¬ Rooted v :=
    not_rooted_of_loop h8 h24 h16 (by simp [hroot]) (by simp [hroot]) (by simp [hroot])
  constructor
  · exact ⟨(exec treeStep (init true false) restartRun).get (by decide), Reach.of_exec rfl (some_get _).symm,
      by decide, by decide, by decide, by decide, hloop (by decide) (by decide) (by decide) (by decide)⟩
  · exact ⟨(exec treeStep (init true false) failedRun).get (by decide), Reach.of_exec rfl (some_get _).symm,
      by decide, by decide, by decide, by decide, hloop (by decide) (by decide) (by decide) (by decide)⟩

end InClusterStorage.Controller
