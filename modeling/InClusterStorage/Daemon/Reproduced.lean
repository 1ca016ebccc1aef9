import InClusterStorage.Daemon.Checkpoint

/- When a checkpoint without a manifest reproduces the tree that the workload sees
   (`checkpoint_reproduces_iff`): names that are only in `lower`, or deleted, always come out
   right (`lookup_of_no_entry`), and an entry of `upper` where `Reproduced` holds. -/
namespace InClusterStorage.Daemon

open Bytes KeyedSteps List Option LocalEntry Entry Table

/-! Where `upper` has no entry. -/

/-- `Lstat` in `lower` tells whether it has the path, unless there is a link on the way. -/
theorem lstat_eq_or (links : Links) (lower : Layer) (p : Path) :
    lstat links lower p = lower.lookup p ∨
      ∃ a l target, a <:+ p ∧ a ≠ p ∧ lower.lookup a = some l ∧ l.kind = .symlink target := by
  unfold lstat
  split
  next l hl => exact .inl hl.symm
  next hnone =>
    split
    next habove =>
      right
      obtain ⟨a, hsuffix, hne, hlink⟩ := anyAbove_iff.mp habove
      obtain ⟨l, hl, hisLink⟩ := (any_eq_true _ _).mp hlink
      unfold isLink at hisLink
      split at hisLink
      next target hkind => exact ⟨a, l, target, hsuffix, hne, hl, hkind⟩
      · cases hisLink
    · exact .inl hnone.symm

variable {l e : LocalEntry} {lower : Layer} {p : Path}

theorem lstat_of_lookup {links : Links} (h : lower.lookup p = some l) : lstat links lower p = lower.lookup p := by
  rw [lstat, h]

theorem outcome_kind_ne_dir (h : e.kind ≠ .dir) : (outcome lower p e).kind ≠ .dir := by
  unfold outcome
  cases hkind : e.kind with
  | dir => exact absurd hkind h
  | symlink target =>
    cases lower.lookup p with
    | none | some l => exact h
  | file content =>
    cases lower.lookup p with
    | none => exact h
    | some l =>
      simp only
      split
      · exact h
      next hdir =>
        have hl : l.kind ≠ .dir := fun hk => hdir (isDir_iff.mpr hk)
        unfold outcomeOfFile
        split
        · split <;> exact hl
        · cases hl' : l.kind with
          | dir => exact absurd hl' hl
          | file old | symlink target => exact nofun

/-- A directory of `upper` stays what `lower` has. -/
theorem outcome_kind_of_dir (h : e.kind = .dir) (hl : lower.lookup p = some l) : (outcome lower p e).kind = l.kind := by
  unfold outcome
  rw [h, hl]
  rfl

section
variable {links : Links} {lower : Layer} {upper : UpperLayer} {ops : List FileOp} {t₀ t : Tree}

variable {p : Path}

/-- Where there is no file, link or whiteout on the way, `Lstat` in `upper` does not fail in
another way. -/
theorem upperGone_of_dirs (hp : upper.lookup p = none)
    (hdirs : ∀ a, a <:+ p → a ≠ p → ∀ u, upper.lookup a = some u → ∃ e hides, u = .entry e hides ∧ e.kind = .dir) :
    upperGone links upper p = true := by
  have hnone (test : UpperEntry → Bool) (htest : ∀ e hides, e.kind = .dir → test (.entry e hides) = false) :
      anyAbove (fun a => (upper.lookup a).any test) p = false := by
    by_contra habove
    rw [Bool.not_eq_false] at habove
    obtain ⟨a, hsuffix, hne, hany⟩ := anyAbove_iff.mp habove
    obtain ⟨u, hu, hu'⟩ := (any_eq_true _ _).mp hany
    obtain ⟨e, hides, rfl, hdir⟩ := hdirs a hsuffix hne u hu
    rw [htest e hides hdir] at hu'
    cases hu'
  unfold upperGone
  simp only [hp, isSome_none, Bool.false_eq_true, if_false]
  rw [hnone, if_neg Bool.false_ne_true, hnone]
  · rfl
  · exact fun e _ hdir => by simp [isDir, hdir]
  · exact fun e _ hdir => by simp [isLink, hdir]

variable (hl : lower.WellFormed) (hu : upper.WellFormed) (h₀ : t₀.Mirrors lower)
  (hscan : IsScan links lower upper {} ops) (h : replayOperations t₀ ops = some t)
include hl hu h₀ hscan h

/-- Where a directory of `upper` took the place of a link, there is still the link. -/
theorem lookup_of_link {a : Path} {u : UpperEntry} {l : LocalEntry}
    {target : String} (hp : upper.lookup p = some u) (hsuffix : a <:+ p) (hne : a ≠ p) (hlower : lower.lookup a = some l)
    (hkind : l.kind = .symlink target) :
    ∃ d hides c, upper.lookup a = some (.entry d hides) ∧ d.kind = .dir ∧ a ≠ [] ∧ t.lookup a = some c ∧
      c.kind = .symlink target := by
  obtain ⟨d, hides, hd, hdir⟩ := hu.above hp hsuffix hne
  have hroot : a ≠ [] := by
    rintro rfl
    obtain ⟨r, hr, hrdir⟩ := hl.root
    rw [hr] at hlower
    cases hlower
    rw [hrdir] at hkind
    cases hkind
  refine ⟨d, hides, _, hd, hdir, hroot, lookup_of_entry hu h₀ hscan h hroot hd (lstat_of_lookup hlower), ?_⟩
  rw [outcome_kind_of_dir hdir hlower, hkind]

/-- Below a file, a link or a whiteout of `upper` there is nothing. -/
theorem lookup_below {a : Path} {u : UpperEntry}
    (ha : upper.lookup a = some u) (hnot : ∀ e hides, u = .entry e hides → e.kind ≠ .dir) (hsuffix : a <:+ p)
    (hne : p ≠ a) : t.lookup p = none := by
  have hwf := wellFormed_replay (h₀.wellFormed hl) h
  have hroot : a ≠ [] := by
    rintro rfl
    obtain ⟨r, hr, hdir⟩ := hu.root
    rw [hr] at ha
    cases ha
    exact hnot r false rfl hdir
  cases u with
  | whiteout =>
    have hgone : t.lookup a = none := by
      rw [lookup_of_no_ops hu hscan h (fun e hides he => by rw [ha] at he; cases he), if_pos]
      refine (mem_deletions fun hmem => absurd hmem.1 not_mem_nil).2.mpr ?_
      exact ⟨⟨a, .whiteout⟩, mem_entries.mpr ha, removed_of_whiteout hroot not_mem_nil⟩
    exact hwf.eq_none (fun e he => by rw [hgone] at he; cases he) hsuffix hne
  | entry e hides =>
    cases lstat_eq_or links lower a with
    | inl heq =>
      have hlookup := lookup_of_entry hu h₀ hscan h hroot ha heq
      refine hwf.eq_none (fun c hc => ?_) hsuffix hne
      rw [hlookup] at hc
      cases hc
      exact outcome_kind_ne_dir (hnot e hides rfl)
    | inr hlink =>
      obtain ⟨b, l, target, hba, hbne, hlower, hkind⟩ := hlink
      obtain ⟨d, _, c, -, -, -, hc, hck⟩ := lookup_of_link hl hu h₀ hscan h ha hba hbne hlower hkind
      have hbp : p ≠ b := by
        rintro rfl
        exact hbne (hba.eq_of_length (le_antisymm hba.length_le hsuffix.length_le))
      refine hwf.eq_none (fun c' hc' => ?_) (hba.trans hsuffix) hbp
      rw [hc] at hc'
      cases hc'
      rw [hck]
      exact nofun

/-- Names that are only in `lower`, or deleted, come out right. -/
theorem lookup_of_no_entry (hne : p ≠ [])
    (hp : ∀ e hides, upper.lookup p ≠ some (.entry e hides)) : t.lookup p = merge lower upper p := by
  have hlookup := lookup_of_no_ops hu hscan h hp
  have hdeletions := (@mem_deletions links lower upper {} p fun hmem => absurd hmem.1 not_mem_nil).2
  unfold merge
  cases hup : upper.lookup p with
  | some u =>
    cases u with
    | entry e hides => exact absurd hup (hp e hides)
    | whiteout =>
      rw [hlookup, if_pos]
      exact hdeletions.mpr ⟨⟨p, .whiteout⟩, mem_entries.mpr hup, removed_of_whiteout hne not_mem_nil⟩
  | none =>
    by_cases hdirs : ∀ a, a <:+ p → a ≠ p → ∀ u, upper.lookup a = some u → ∃ e hides, u = .entry e hides ∧ e.kind = .dir
    · cases hhidden : hidden upper p with
      | false =>
        rw [hlookup, if_neg, h₀ p]
        · rfl
        · intro hmem
          obtain ⟨u, hu', hr⟩ := hdeletions.mp hmem
          exact not_removed_of_visible hup hhidden u hu' hr
      | true =>
        -- a directory on the way hides what `lower` has
        obtain ⟨a, hsuffix, hane, hany⟩ := anyAbove_iff.mp hhidden
        obtain ⟨u, ha, hhides⟩ := (any_eq_true _ _).mp hany
        obtain ⟨e, hides, rfl, hdir⟩ := hdirs a hsuffix hane u ha
        have hopaque : hides = true := by simpa [UpperEntry.hidesBelow, isDir, hdir] using hhides
        subst hopaque
        have hroot : a ≠ [] := by
          rintro rfl
          obtain ⟨r, hr, -⟩ := hu.root
          rw [hr] at ha
          cases ha
        rw [if_pos rfl, hlookup]
        cases hlower : lower.lookup p with
        | none =>
          rw [h₀ p, hlower]
          exact ite_self _
        | some l =>
          rw [if_pos]
          refine hdeletions.mpr ⟨⟨a, .entry e true⟩, mem_entries.mpr ha, ?_⟩
          exact removed_of_hides hroot hdir not_mem_nil hsuffix hane (by rw [hlower]; rfl) (upperGone_of_dirs hup hdirs)
    · push Not at hdirs
      obtain ⟨a, hsuffix, hane, u, ha, hnot⟩ := hdirs
      rw [lookup_below hl hu h₀ hscan h ha hnot hsuffix (Ne.symm hane)]
      have hhidden : hidden upper p = true := by
        refine anyAbove_iff.mpr ⟨a, hsuffix, hane, ?_⟩
        rw [ha]
        cases u with
        | whiteout => rfl
        | entry e hides =>
          have := hnot e hides rfl
          simp [UpperEntry.hidesBelow, isDir, this]
      rw [hhidden]
      rfl

end

/-! Where it has one. -/

/-- `SetAttr` makes the mode and the owner right. -/
def AttrsSent (old : Entry) (e : LocalEntry) : Prop :=
  e.mode = (if goMode e.mode = 0 then old.mode else goMode e.mode) ∧ (e.uid = 0 → old.uid = 0) ∧ (e.gid = 0 → old.gid = 0)

/-- The two have no extended attribute with the same value. -/
def NoneShared (e l : LocalEntry) : Prop :=
  ∀ name value, e.ownXattrs.lookup name = some value → l.ownXattrs.lookup name ≠ some value

/-- A directory or a file that is created gets its mode and its owner. -/
def NewAttrs (lower : Layer) (p : Path) (e : LocalEntry) : Prop :=
  0 < e.mode ∧ e.mode < 0o1000 ∧ (e.gid = 0 → (groupOf lower p.tail).getD 0 = 0)

/-- The file is the same but perhaps for its mode and its owner. -/
def SameFile (e l : LocalEntry) : Prop :=
  l.size = e.size ∧ l.mtime = e.mtime ∧ ∀ name, e.ownXattrs.lookup name = l.ownXattrs.lookup name

/-- The entry of `upper` comes out as the workload sees it. -/
def Reproduced (lower : Layer) (p : Path) (e : LocalEntry) : Prop :=
  match e.kind, lower.lookup p with
  | .dir, none | .file _, none => NewAttrs lower p e
  | .dir, some l => l.kind = .dir ∧ AttrsSent l.seen e
  | .symlink _, none => (groupOf lower p.tail).getD e.gid = e.gid
  | .symlink _, some l => (groupOf lower p.tail).getD e.gid = e.gid ∧ NoneShared e l
  | .file _, some l =>
    match l.kind with
    | .dir => NewAttrs lower p e ∧ NoneShared e l
    | .symlink _ => False
    | .file _ => (SameFile e l → l.mode = e.mode ∧ l.uid = e.uid ∧ l.gid = e.gid) ∧ (¬ SameFile e l → AttrsSent l.seen e)

theorem Entry.ext_iff {a b : Entry} :
    a = b ↔ a.kind = b.kind ∧ a.mode = b.mode ∧ a.uid = b.uid ∧ a.gid = b.gid ∧ a.xattrs = b.xattrs := by
  cases a
  cases b
  exact mk.injEq .. |>.to_iff

theorem setAttr_eq_iff (old : Entry) (e : LocalEntry) :
    ((old.setAttr (goMode e.mode) e.uid e.gid).mode = e.mode ∧ (old.setAttr (goMode e.mode) e.uid e.gid).uid = e.uid ∧
      (old.setAttr (goMode e.mode) e.uid e.gid).gid = e.gid) ↔ AttrsSent old e := by
  have howner (old new : Nat) : (if new ≠ 0 then new else old) = new ↔ (new = 0 → old = 0) := by
    split <;> omega
  unfold AttrsSent
  simp only [Entry.setAttr, howner]
  rw [ite_not, eq_comm]

theorem changedXattrs_iff :
    changedXattrs e.ownXattrs l.ownXattrs (fun _ => none) = (fun name => e.ownXattrs.lookup name) ↔ NoneShared e l := by
  rw [funext_iff]
  refine forall_congr' fun name => ?_
  unfold changedXattrs
  cases e.ownXattrs.lookup name with
  | none | some value => simp

theorem attrsSent_created (h : ∀ target, e.kind ≠ .symlink target) :
    AttrsSent (created lower p e) e ↔ NewAttrs lower p e := by
  have hmode : e.mode = (if goMode e.mode = 0 then (created lower p e).mode else goMode e.mode) ↔
      0 < e.mode ∧ e.mode < 0o1000 := by
    unfold goMode
    split
    next hzero =>
      have hdefault : (created lower p e).mode % 0o1000 ≠ 0 := by
        unfold created goMode
        cases hkind : e.kind with
        | symlink target => exact absurd hkind (h target)
        | file content => simp only [hzero, if_true]; decide
        | dir =>
          simp only [hzero, if_true]
          split <;> decide
      refine iff_of_false (fun heq => ?_) (by omega)
      rw [← heq] at hdefault
      exact hdefault hzero
    · omega
  have hgid : (e.gid = 0 → (created lower p e).gid = 0) ↔ (e.gid = 0 → (groupOf lower p.tail).getD 0 = 0) := by
    refine forall_congr' fun hzero => ?_
    rw [created, hzero]
  unfold AttrsSent NewAttrs
  rw [hmode, hgid, and_assoc]
  simp [created]

theorem sameFile_iff {content : List UInt8} (h : e.kind = .file content) :
    SameFile e l ↔ (l.size = content.length ∧ l.mtime = e.mtime) ∧ scanXAttrs [] e.ownXattrs l.ownXattrs = [] := by
  have hsize : e.size = content.length := by rw [size, h]
  rw [SameFile, hsize, scanXAttrs_eq_nil, and_assoc]

theorem outcomeOfFile_eq_seen {content old : List UInt8} (he : e.kind = .file content)
    (hl : l.kind = .file old) (hcontent : l.size = e.size → l.mtime = e.mtime → l.kind = e.kind) :
    outcomeOfFile e content l = e.seen ↔
      (SameFile e l → l.mode = e.mode ∧ l.uid = e.uid ∧ l.gid = e.gid) ∧ (¬ SameFile e l → AttrsSent l.seen e) := by
  have hsize : e.size = content.length := by rw [size, he]
  have hsent : ∀ c : Entry, c = { updated l.seen e with kind := e.kind } → (c = e.seen ↔ AttrsSent l.seen e) := by
    rintro c rfl
    rw [← setAttr_eq_iff, ext_iff]
    simp only [updated, seen, true_and, and_true]
  unfold outcomeOfFile
  by_cases hsame : l.size = content.length ∧ l.mtime = e.mtime
  · have hkind : l.kind = e.kind := hcontent (by rw [hsize, hsame.1]) hsame.2
    rw [if_pos hsame]
    by_cases hxattrs : scanXAttrs [] e.ownXattrs l.ownXattrs = []
    · have hfile : SameFile e l := (sameFile_iff he).mpr ⟨hsame, hxattrs⟩
      have hx : (fun name => l.ownXattrs.lookup name) = fun name => e.ownXattrs.lookup name :=
        funext fun name => (hfile.2.2 name).symm
      rw [if_pos hxattrs, ext_iff]
      simp only [seen, hkind, hx, true_and, and_true, hfile, not_true_eq_false, false_implies, true_implies]
    · have hfile : ¬ SameFile e l := fun h => hxattrs ((sameFile_iff he).mp h).2
      rw [if_neg hxattrs, hsent]
      · simp only [hfile, not_false_eq_true, false_implies, true_implies, true_and]
      · rw [← hkind]
        rfl
  · have hfile : ¬ SameFile e l := fun h => hsame ((sameFile_iff he).mp h).1
    rw [if_neg hsame, hsent]
    · simp only [hfile, not_false_eq_true, false_implies, true_implies, true_and]
    · rw [hl, he]

/-- An entry comes out as it is seen exactly where `Reproduced` holds. -/
theorem outcome_eq_seen_iff (hlink : e.LinkMode)
    (hcontent : ∀ l, lower.lookup p = some l → (∃ old, l.kind = .file old) → l.size = e.size → l.mtime = e.mtime →
      (∃ content, e.kind = .file content) → l.kind = e.kind) : outcome lower p e = e.seen ↔ Reproduced lower p e := by
  have hnew : (∀ target, e.kind ≠ .symlink target) → (updated (created lower p e) e = e.seen ↔ NewAttrs lower p e) := by
    intro hkind
    rw [← attrsSent_created hkind, ← setAttr_eq_iff, ext_iff]
    simp only [updated, seen, Entry.setAttr, created, true_and, and_true]
  unfold outcome Reproduced
  cases hkind : e.kind with
  | dir =>
    cases hl : lower.lookup p with
    | none => exact hnew (by simp [hkind])
    | some l =>
      simp only
      rw [← setAttr_eq_iff, ext_iff]
      simp only [updated, seen, Entry.setAttr, hkind, and_true]
  | symlink target =>
    have hmode := hlink target hkind
    cases hl : lower.lookup p with
    | none =>
      rw [ext_iff]
      simp only [created, seen, hkind, hmode, true_and, and_true]
    | some l =>
      simp only
      rw [ext_iff, ← changedXattrs_iff]
      simp only [created, seen, hkind, hmode, true_and]
  | file content =>
    have hnotLink : ∀ target, e.kind ≠ .symlink target := by simp [hkind]
    cases hl : lower.lookup p with
    | none => exact hnew hnotLink
    | some l =>
      simp only
      cases hlkind : l.kind with
      | dir =>
        have hdir : l.isDir = true := isDir_iff.mpr hlkind
        simp only [hdir, if_true]
        rw [← hnew hnotLink, ← changedXattrs_iff, ext_iff, ext_iff (a := updated _ _)]
        simp only [updated, seen, and_true, and_assoc]
      | symlink target =>
        have hdir : l.isDir = false := by simp [isDir, hlkind]
        simp only [hdir, Bool.false_eq_true, if_false, iff_false]
        intro heq
        have hk := congrArg Entry.kind heq
        unfold outcomeOfFile at hk
        split at hk
        · split at hk <;> cases hlkind.symm.trans (hk.trans hkind)
        · simp only [hlkind] at hk
          cases hk.trans hkind
      | file old =>
        have hdir : l.isDir = false := by simp [isDir, hlkind]
        simp only [hdir, Bool.false_eq_true, if_false]
        exact outcomeOfFile_eq_seen hkind hlkind fun hsize hmtime => hcontent l hl ⟨old, hlkind⟩ hsize hmtime
          ⟨content, hkind⟩

/-- A change of the bytes of a file also changes its size or its time. -/
def ChangesShow (lower : Layer) (upper : UpperLayer) : Prop :=
  ∀ p e hides content l old, upper.lookup p = some (.entry e hides) → e.kind = .file content → lower.lookup p = some l →
    l.kind = .file old → l.size = e.size → l.mtime = e.mtime → old = content

section
variable {links : Links} {lower : Layer} {upper : UpperLayer} {ops : List FileOp} {t₀ t : Tree}

/-- The controller has the tree that the workload sees exactly where every entry of `upper` is
of a kind that the scan handles. -/
theorem checkpoint_reproduces_iff (hl : lower.WellFormed) (hu : upper.WellFormed) (h₀ : t₀.Mirrors lower)
    (hshow : ChangesShow lower upper) (hscan : IsScan links lower upper {} ops)
    (h : replayOperations t₀ ops = some t) :
    (∀ p, p ≠ [] → t.lookup p = merge lower upper p) ↔
      ∀ p e hides, p ≠ [] → upper.lookup p = some (.entry e hides) → Reproduced lower p e := by
  have hseen (p e hides) (hp : upper.lookup p = some (.entry e hides)) :
      (outcome lower p e = e.seen ↔ Reproduced lower p e) := by
    refine outcome_eq_seen_iff (hu.links p e hides hp) fun l hlower hold hsize hmtime hnew => ?_
    obtain ⟨old, hold⟩ := hold
    obtain ⟨content, hnew⟩ := hnew
    rw [hold, hnew, hshow p e hides content l old hp hnew hlower hold hsize hmtime]
  have hmerge (p e hides) (hp : upper.lookup p = some (.entry e hides)) : merge lower upper p = some e.seen := by
    rw [merge, hp]
  refine ⟨fun hall p e hides hne hp => ?_, fun hall p hne => ?_⟩
  · cases lstat_eq_or links lower p with
    | inl hlstat =>
      have hlookup := hall p hne
      rw [lookup_of_entry hu h₀ hscan h hne hp hlstat, hmerge p e hides hp] at hlookup
      exact (hseen p e hides hp).mp (some.inj hlookup)
    | inr hlink =>
      -- above the entry there is a link that a directory took the place of
      obtain ⟨a, l, target, hsuffix, hane, hlower, hkind⟩ := hlink
      obtain ⟨d, dhides, c, hd, hdir, haroot, hc, hckind⟩ := lookup_of_link hl hu h₀ hscan h hp hsuffix hane hlower hkind
      have hlookup := hall a haroot
      rw [hc, hmerge a d dhides hd] at hlookup
      have hsame : c.kind = d.kind := congrArg Entry.kind (some.inj hlookup)
      rw [hckind, hdir] at hsame
      cases hsame
  · by_cases hentry : ∃ e hides, upper.lookup p = some (.entry e hides)
    · obtain ⟨e, hides, hp⟩ := hentry
      have hlstat : lstat links lower p = lower.lookup p := by
        refine (lstat_eq_or links lower p).resolve_right fun hlink => ?_
        obtain ⟨a, l, target, hsuffix, hane, hlower, hkind⟩ := hlink
        obtain ⟨d, dhides, c, hd, hdir, haroot, -, -⟩ := lookup_of_link hl hu h₀ hscan h hp hsuffix hane hlower hkind
        have hr := hall a d dhides haroot hd
        rw [Reproduced, hdir, hlower] at hr
        rw [hr.1] at hkind
        cases hkind
      rw [lookup_of_entry hu h₀ hscan h hne hp hlstat, hmerge p e hides hp,
        (hseen p e hides hp).mpr (hall p e hides hne hp)]
    · exact lookup_of_no_entry hl hu h₀ hscan h hne fun e hides hp => hentry ⟨e, hides, hp⟩

end

theorem rotation_is_reproduced :
    ∃ t, replayOperations appVolume.tree (scanUpperLayer noLinks appVolume appRotated {}) = some t ∧
      ∀ p, p ≠ [] → t.lookup p = merge appVolume appRotated p := by
  have hsome : (replayOperations appVolume.tree (scanUpperLayer noLinks appVolume appRotated {})).isSome = true := by
    decide +kernel
  obtain ⟨t, ht⟩ := isSome_iff_exists.mp hsome
  have hentries (p e hides) (hne : p ≠ []) (hp : appRotated.lookup p = some (.entry e hides)) :
      p = ["app.1"] ∧ e = appLog := by
    simp only [appRotated, lookup_insert, hne, if_false] at hp
    split at hp
    next heq =>
      cases hp
      exact ⟨heq, rfl⟩
    · split at hp
      · cases hp
      · rw [AList.lookup_empty] at hp
        cases hp
  refine ⟨t, ht, (checkpoint_reproduces_iff (by decide +kernel) (by decide +kernel) appVolume.mirrors_tree ?_
    (isScan_scanUpperLayer _ _ _ _) ht).mpr ?_⟩
  · intro p e hides content l old hp hkind hlower hold
    have hne : p ≠ [] := by
      rintro rfl
      cases hp
      cases hkind
    obtain ⟨rfl, rfl⟩ := hentries p e hides hne hp
    cases hlower
  · intro p e hides hne hp
    obtain ⟨rfl, rfl⟩ := hentries p e hides hne hp
    exact ⟨by decide, by decide, by decide⟩

/-- Only the mode was changed. -/
def appChmod : UpperLayer :=
  (∅ : UpperLayer).insert [] (.entry rootDir false) |>.insert ["app.log"] (.entry { appLog with mode := 0o600 } false)

/-- The file was deleted and a directory of its name made. -/
def appDir : UpperLayer :=
  (∅ : UpperLayer).insert [] (.entry rootDir false) |>.insert ["app.log"] (.entry { rootDir with uid := 1000 } true)

/-- The controller's entry after a checkpoint without a manifest. -/
def checkpointed (lower : Layer) (upper : UpperLayer) (p : Path) : Option Entry :=
  (replayOperations lower.tree (scanUpperLayer noLinks lower upper {})).bind fun t => t.lookup p

/-- The replays succeed, but the mode stays 0644, and the directory a file. -/
theorem chmod_and_dir_are_lost :
    (appVolume.WellFormed ∧ appChmod.WellFormed ∧ appDir.WellFormed) ∧
      (checkpointed appVolume appChmod ["app.log"]).map Entry.mode = some 0o644 ∧
      (merge appVolume appChmod ["app.log"]).map Entry.mode = some 0o600 ∧
      (checkpointed appVolume appDir ["app.log"]).map Entry.kind = some (.file [1, 2]) ∧
      (merge appVolume appDir ["app.log"]).map Entry.kind = some .dir := by
  decide +kernel

end InClusterStorage.Daemon
