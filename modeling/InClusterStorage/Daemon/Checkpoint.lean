import InClusterStorage.Daemon.Effects

/- What a checkpoint without a manifest makes of an entry of `upper` (`lookup_of_entry`).

   The scan, and so the operations of a path, depends on whether `lower` has the path: a
   directory that took the place of a file or a link stays what it was, and so does a file that
   took the place of a link. A file whose size and time are those of `lower` is taken as
   unchanged, also if its mode or owner was changed. The bits above 0777 are not sent, a mode or
   an owner that is 0 is not set, and the controller gives new entries of a directory with the
   set-group-ID bit its group. Where something else is removed first, attributes that it had in
   common are not set. -/
namespace InClusterStorage.Daemon

open Bytes KeyedSteps List Option LocalEntry FileOp

/-- The group that new entries of a directory take, if it has the bit. -/
def Entry.group (d : Entry) : Option Nat := if hasSetgid d.mode then some d.gid else none

variable (d : Entry) {mode : Nat}

theorem Entry.groupFor_eq (gid : Nat) : d.groupFor gid = d.group.getD gid := by
  unfold Entry.groupFor Entry.group
  split <;> rfl

/-- The group that new entries of a directory take during a replay: a new directory takes the
bit and the group from the one it is in. -/
def groupOf (lower : Layer) : Path → Option Nat
  | [] => (lower.lookup []).bind fun d => d.seen.group
  | name :: parent => match lower.lookup (name :: parent) with
    | some d => d.seen.group
    | none => groupOf lower parent

variable {lower : Layer} {p : Path} {content : List UInt8} {c : Entry}

theorem groupOf_of_lookup {d : LocalEntry} (h : lower.lookup p = some d) : groupOf lower p = d.seen.group := by
  cases p with
  | nil => rw [groupOf, h]; rfl
  | cons name parent => rw [groupOf, h]

theorem groupOf_of_none {name : String} {parent : Path} (h : lower.lookup (name :: parent) = none) :
    groupOf lower (name :: parent) = groupOf lower parent := by
  rw [groupOf, h]

/-- What the calls that create an entry make, with all bytes of a file. -/
def created (lower : Layer) (p : Path) (e : LocalEntry) : Entry where
  kind := e.kind
  mode := match e.kind with
    | .dir =>
      let mode := if goMode e.mode = 0 then 0o755 else goMode e.mode
      if (groupOf lower p.tail).isSome then mode + 0o2000 else mode
    | .file _ => if goMode e.mode = 0 then 0o644 else goMode e.mode
    | .symlink _ => 0o777
  uid := e.uid
  gid := (groupOf lower p.tail).getD e.gid
  xattrs := fun _ => none

/-- The attributes of an entry that is there are set to those of `e`. -/
def updated (old : Entry) (e : LocalEntry) : Entry :=
  { old.setAttr (goMode e.mode) e.uid e.gid with xattrs := fun name => e.ownXattrs.lookup name }

/-- What a checkpoint makes of a file that is in both layers. -/
def outcomeOfFile (e : LocalEntry) (content : List UInt8) (l : LocalEntry) : Entry :=
  if l.size = content.length ∧ l.mtime = e.mtime then
    if scanXAttrs [] e.ownXattrs l.ownXattrs = [] then l.seen else updated l.seen e
  else
    { updated l.seen e with
      kind := match l.kind with
        | .file _ => .file content
        | kind => kind }

/-- What a checkpoint makes of an entry of `upper`. -/
def outcome (lower : Layer) (p : Path) (e : LocalEntry) : Entry :=
  match e.kind, lower.lookup p with
  | .dir, none => updated (created lower p e) e
  | .dir, some l => updated l.seen e
  | .symlink _, none => { created lower p e with xattrs := fun name => e.ownXattrs.lookup name }
  | .symlink _, some l => { created lower p e with xattrs := changedXattrs e.ownXattrs l.ownXattrs fun _ => none }
  | .file _, none => updated (created lower p e) e
  | .file content, some l =>
    if l.isDir then
      { updated (created lower p e) e with xattrs := changedXattrs e.ownXattrs l.ownXattrs fun _ => none }
    else outcomeOfFile e content l

/-! Deletions. -/

theorem FileOp.Removes.effect_eq {op : FileOp} (h : op.Removes) {parent old new : Option Entry}
    (heffect : op.effect parent old = some new) : new = none := by
  cases h with rw [hop] at heffect
  | inl hop =>
    cases old with
    | none => exact (some.inj heffect).symm
    | some e =>
      obtain ⟨-, heffect⟩ := ite_none_left_eq_some.mp heffect
      exact (some.inj heffect).symm
  | inr hop =>
    cases old with
    | none => exact (some.inj heffect).symm
    | some e =>
      obtain ⟨-, heffect⟩ := ite_none_right_eq_some.mp heffect
      exact (some.inj heffect).symm

theorem lookup_deletions {t t' : Tree} {dels : List FileOp} (hdels : ∀ op ∈ dels, op.Removes)
    (h : run replayOp t dels = some t') (q : Path) :
    t'.lookup q = if ∃ op ∈ dels, op.path = q then none else t.lookup q := by
  induction dels generalizing t with
  | nil =>
    cases h
    simp
  | cons op dels ih =>
    obtain ⟨t₁, hfirst, hrest⟩ := run_cons.mp h
    rw [ih (fun op' hop' => hdels op' (mem_cons_of_mem _ hop')) hrest]
    by_cases hq : op.path = q
    · subst hq
      simp [(hdels op mem_cons_self).effect_eq (replayOp_self hfirst)]
    · rw [replayOp_frame t op t₁ hfirst q (Ne.symm hq)]
      simp [hq]

/-! Creations. -/

/-- A creation, and where it makes a directory `lower` has none. -/
def FileOp.Creates (lower : Layer) (op : FileOp) : Prop :=
  op.Makes ∧ ∀ p mode uid gid, op = .mkdir p mode uid gid → lower.lookup p = none

/-- Directories give the group that `groupOf` says. -/
def GroupsKept (lower : Layer) (t : Tree) : Prop :=
  ∀ q d, t.lookup q = some d → d.kind = .dir → d.group = groupOf lower q

theorem hasSetgid_of_lt (h : mode < 0o1000) : hasSetgid mode = false := by
  unfold hasSetgid
  rw [decide_eq_false_iff_not]
  omega

theorem hasSetgid_add (h : mode < 0o1000) : hasSetgid (mode + 0o2000) = true := by
  unfold hasSetgid
  rw [decide_eq_true_iff]
  omega

/-- A new directory gives the group of the one it is in. -/
theorem Entry.group_newDir (h : mode < 0o1000) (uid gid : Nat) : (d.newDir mode uid gid).group = d.group := by
  unfold Entry.group Entry.newDir Entry.groupFor
  simp only [hasSetgid_of_lt h]
  cases hd : hasSetgid d.mode with
  | false => simp [hasSetgid_of_lt h]
  | true => simp [hasSetgid_add h]

theorem GroupsKept.step {t t' : Tree} {op : FileOp} (h : GroupsKept lower t) (hop : op.Creates lower)
    (hs : replayOp t op = some t') : GroupsKept lower t' := by
  intro q d hd hdir
  by_cases hq : q = op.path
  swap
  · rw [replayOp_frame t op t' hs q hq] at hd
    exact h q d hd hdir
  subst hq
  have heffect := replayOp_self hs
  rw [hd] at heffect
  cases op with
  | mkdir p mode uid gid =>
    have hmode : mode < 0o1000 := hop.1
    have hnone := hop.2 p mode uid gid rfl
    cases hold : t.lookup p with
    | some e => rw [path, hold] at heffect; cases heffect
    | none =>
      rw [path, hold] at heffect
      obtain ⟨parent, hparent, hnew⟩ := map_eq_some_iff.mp heffect
      cases hnew
      obtain ⟨name, above, rfl, hl, hpdir⟩ := Tree.parentDir_eq_some hparent
      have hsent : (if mode = 0 then 0o755 else mode) < 0o1000 := by split <;> omega
      rw [Entry.group_newDir parent hsent, h above parent hl hpdir]
      exact (groupOf_of_none hnone).symm
  | createFile p mode uid gid data =>
    obtain ⟨parent, -, hnew⟩ := bind_eq_some_iff.mp heffect
    simp only at hnew
    split at hnew
    · cases hnew
      cases hdir
    · split at hnew <;> cases hnew
      cases hdir
  | symlink p target uid gid =>
    cases hold : t.lookup p with
    | some e => rw [path, hold] at heffect; cases heffect
    | none =>
      rw [path, hold] at heffect
      obtain ⟨parent, -, hnew⟩ := map_eq_some_iff.mp heffect
      cases hnew
      cases hdir
  | unlink p => cases FileOp.Removes.effect_eq (.inl rfl) heffect
  | rmdir p => cases FileOp.Removes.effect_eq (.inr rfl) heffect
  | writeFile _ _ _ | truncateFile _ _ | setAttr _ _ _ _ _ | setXAttr _ _ _ | removeXAttr _ _ => exact hop.1.elim

theorem goMode_lt (mode : Nat) : goMode mode < 0o1000 := Nat.mod_lt _ (by decide)

section
variable {links : Links} {lower : Layer} {upper : UpperLayer} {manifest : CheckpointManifest}

theorem lookup_of_lstat_none {p : Path} (h : lstat links lower p = none) : lower.lookup p = none := by
  unfold lstat at h
  split at h
  · cases h
  next hnone => exact hnone

theorem creates_of_mem_creations (hu : upper.WellFormed) {op : FileOp}
    (h : op ∈ creations links lower upper manifest) : op.Creates lower := by
  have hat : op ∈ (scanAt links lower upper manifest op.path).creations := by
    rw [← filter_creations, mem_filter]
    exact ⟨h, decide_eq_true rfl⟩
  by_cases hroot : op.path = []
  · rw [hroot, scanAt_root] at hat
    cases hat
  by_cases hentry : ∃ e hides, upper.lookup op.path = some (.entry e hides)
  · obtain ⟨e, hides, hp⟩ := hentry
    rw [scanAt_of_entry hu hp hroot] at hat
    refine ⟨((scanEntry_at _ _ _ _ _).creations op hat).2, ?_⟩
    rintro p mode uid gid rfl
    exact lookup_of_lstat_none (existing_of_mkdir hat)
  · rw [scanAt_of_no_entry fun e hides hp => hentry ⟨e, hides, hp⟩] at hat
    cases hat

end

/-- The group of the directory in which something is made. -/
theorem GroupsKept.parent {t : Tree} (h : GroupsKept lower t) {d : Entry}
    (hd : t.parentDir p = some d) : d.group = groupOf lower p.tail := by
  obtain ⟨name, parent, rfl, hl, hdir⟩ := Tree.parentDir_eq_some hd
  exact h parent d hl hdir

/-- A removal and a creation succeed in this order only. -/
theorem of_stepsAt_replaces {l : LocalEntry} {op : FileOp} {crs : List FileOp} {old : Entry}
    {b : Option Entry} (hperm : crs.Perm (replaces p (some l) ++ [op])) (hop : op.path = p)
    (hfails : ∀ parent, op.effect parent (some old) = none)
    (h : StepsAt replayOp (GroupsKept lower) p crs (some old) b) :
    ∃ t, GroupsKept lower t ∧ op.effect (t.parentDir p) none = some b := by
  have hremove : ∃ r : FileOp, replaces p (some l) = [r] ∧ r.Removes ∧ r.path = p := by
    refine ⟨_, rfl, ?_⟩
    split
    · exact ⟨.inr rfl, rfl⟩
    · exact ⟨.inl rfl, rfl⟩
  obtain ⟨r, hr, hremoves, hpath⟩ := hremove
  rw [hr, singleton_append] at hperm
  cases crs with
  | nil => exact absurd hperm.length_eq (by simp)
  | cons first rest =>
    have hfirst : first = r ∨ first = op := by simpa using hperm.subset mem_cons_self
    have hfirstPath : first.path = p := by
      cases hfirst with
      | inl heq => rw [heq, hpath]
      | inr heq => rw [heq, hop]
    obtain ⟨t, c, hI, heffect, hrest⟩ := of_stepsAt_cons h hfirstPath
    by_cases heq : first = r
    · subst heq
      cases hremoves.effect_eq heffect
      have hsecond : rest = [op] := perm_singleton.mp (hperm.cons_inv)
      subst hsecond
      obtain ⟨t', c', hI', heffect', hlast⟩ := of_stepsAt_cons hrest hop
      cases of_stepsAt_nil hlast
      exact ⟨t', hI', heffect'⟩
    · rw [hfirst.resolve_left heq, hfails] at heffect
      cases heffect

/-! The whole replay, path by path. -/

section
variable {links : Links} {lower : Layer} {upper : UpperLayer} {manifest : CheckpointManifest} {ops : List FileOp}
  {t₀ t : Tree}

theorem inPlace_of_mem_scanAt {p : Path} {op : FileOp}
    (h : op ∈ (scanAt links lower upper manifest p).writes ++ (scanAt links lower upper manifest p).attrs) :
    op.path = p ∧ op.InPlace := by
  rw [mem_append] at h
  unfold scanAt at h
  split at h
  · exact h.elim nofun nofun
  · exact (modificationsOf_at _ _).changes op h

/-- What a replay that succeeds has done under a path: deletions, creations in some order, and
then the writes and attributes of its entry. -/
theorem steps_of_replay {I : Tree → Prop} (hu : upper.WellFormed)
    (hinv : ∀ t op t', op.Creates lower → I t → replayOp t op = some t' → I t') (h₀ : I t₀)
    (hscan : IsScan links lower upper manifest ops) (h : replayOperations t₀ ops = some t) (p : Path) :
    ∃ crs b, crs.Perm (scanAt links lower upper manifest p).creations ∧
      StepsAt replayOp I p crs
        (if ∃ op ∈ deletions links lower upper manifest, op.path = p then none else t₀.lookup p) b ∧
      localRun ((scanAt links lower upper manifest p).writes ++ (scanAt links lower upper manifest p).attrs) b =
        some (t.lookup p) := by
  obtain ⟨dels, crs, hdels, -, hcrs, -, rfl⟩ := hscan
  unfold replayOperations at h
  rw [append_assoc, run_append] at h
  obtain ⟨t₂, hfirst, hlast⟩ := h
  obtain ⟨t₁, hfirst, hsecond⟩ := run_append.mp hfirst
  have hremoves (op) (hop : op ∈ dels) : op.Removes := removes_of_mem_deletions (hdels.subset hop)
  have hcreates (op) (hop : op ∈ crs) : op.Creates lower := creates_of_mem_creations hu (hcrs.subset hop)
  have hI₁ : I t₁ := by
    refine run_inv (fun t op t' hop => hinv t op t' ?_) h₀ hfirst
    cases hremoves op hop with
    | inl heq | inr heq => rw [heq]; exact ⟨trivial, nofun⟩
  have hsteps := stepsAt_of_run (k := p) replayOp_frame (fun t op t' hop => hinv t op t' (hcreates op hop)) hI₁ hsecond
  have hsteps' := stepsAt_of_run (I := fun _ => True) (k := p) replayOp_frame (fun _ _ _ _ _ _ => trivial) trivial hlast
  rw [filter_append, filter_writes, filter_attrs] at hsteps'
  refine ⟨crs.filter fun op => op.path = p, t₂.lookup p, ?_, ?_, ?_⟩
  · rw [← filter_creations]
    exact hcrs.filter _
  · rw [lookup_deletions hremoves hfirst] at hsteps
    simpa only [hdels.mem_iff] using hsteps
  · exact localRun_of_stepsAt (fun op hop => inPlace_of_mem_scanAt hop) hsteps'

theorem not_deleted_of_entry (hu : upper.WellFormed) {p : Path} {e : LocalEntry} {hides : Bool}
    (hp : upper.lookup p = some (.entry e hides)) : ¬ ∃ op ∈ deletions links lower upper manifest, op.path = p := by
  have hskip : ¬ (p ∈ manifest.whiteouts ∧ upper.lookup p = some .whiteout) := by
    rw [hp]
    exact fun h => nomatch h.2
  rw [← (@mem_deletions links lower upper manifest p hskip).1]
  exact not_mem_deleted hu hp

end

/-! What is created. -/

section
variable {lower : Layer} {t : Tree} {p : Path} {e : LocalEntry} {b : Option Entry}

theorem groupsKept_of_mirrors (h : t.Mirrors lower) : GroupsKept lower t := by
  intro q d hd _
  rw [h q] at hd
  obtain ⟨l, hl, rfl⟩ := map_eq_some_iff.mp hd
  exact (groupOf_of_lookup hl).symm

theorem Entry.isSome_group : d.group.isSome = hasSetgid d.mode := by
  unfold Entry.group
  split
  next h => exact h.symm
  next h => exact (Bool.eq_false_iff.mpr h).symm

theorem of_mkdir (ht : GroupsKept lower t) (hkind : e.kind = .dir)
    (h : (mkdir p (goMode e.mode) e.uid e.gid).effect (t.parentDir p) none = some b) :
    b = some (created lower p e) := by
  obtain ⟨d, hd, rfl⟩ := map_eq_some_iff.mp h
  have hsent : (if goMode e.mode = 0 then 0o755 else goMode e.mode) < 0o1000 := by
    have := goMode_lt e.mode
    split <;> omega
  simp only [Entry.newDir, created, hkind, hasSetgid_of_lt hsent, ← ht.parent hd, Entry.isSome_group,
    Entry.groupFor_eq, Bool.false_eq_true, not_false_eq_true, and_true]

theorem of_symlink (ht : GroupsKept lower t) {target : String} (hkind : e.kind = .symlink target)
    (h : (symlink p target e.uid e.gid).effect (t.parentDir p) none = some b) : b = some (created lower p e) := by
  obtain ⟨d, hd, rfl⟩ := map_eq_some_iff.mp h
  simp only [created, hkind, ← ht.parent hd, Entry.groupFor_eq]

theorem of_createFile (ht : GroupsKept lower t) {content data : List UInt8} (hkind : e.kind = .file content)
    (h : (createFile p (goMode e.mode) e.uid e.gid data).effect (t.parentDir p) none = some b) :
    b = some { created lower p e with kind := .file data } := by
  obtain ⟨d, hd, hnew⟩ := bind_eq_some_iff.mp h
  cases hnew
  simp only [created, hkind, ← ht.parent hd, Entry.groupFor_eq]

end

/-! The bytes of a file. -/

theorem splice_take_drop (content : List UInt8) (n : Nat) (hrest : content.drop n ≠ []) :
    splice (content.take n) n (content.drop n) = content := by
  have hlen : n < content.length := by
    by_contra hle
    exact hrest (drop_eq_nil_of_le (by omega))
  refine ext ?_ fun i _ => ?_
  · rw [length_splice, length_take, length_drop]
    omega
  · rw [byteAt_splice, length_drop]
    by_cases hi : n ≤ i
    · split
      · rw [byteAt_drop, Nat.add_sub_cancel' hi]
      next hout =>
        rw [byteAt_take, if_neg (by omega), byteAt_of_length_le (by omega)]
    · rw [if_neg (by omega), byteAt_take, if_pos (by omega)]

theorem splice_zero {old : List UInt8} (h : old.length ≤ content.length) : splice old 0 content = content := by
  refine ext ?_ fun i hi => ?_
  · rw [length_splice]
    omega
  · rw [length_splice] at hi
    rw [byteAt_splice, if_pos (by omega), Nat.sub_zero]

theorem localRun_rest (hc : c.kind = .file (content.take readSize)) :
    localRun (writesFrom p readSize (content.drop readSize)) (some c) = some (some { c with kind := .file content }) := by
  rw [localRun_writesFrom hc]
  split
  next hnil =>
    rw [take_of_length_le (drop_eq_nil_iff.mp hnil)]
  next hrest => rw [splice_take_drop content readSize hrest]

theorem localRun_truncateFile {size : Nat} {c' : Entry} (h : c.changeContent (resize size) = some c') :
    localRun [.truncateFile p size] (some c) = some (some c') := by
  have heffect : (truncateFile p size).effect none (some c) = (c.changeContent (resize size)).map some := rfl
  rw [localRun_cons, heffect, h]
  rfl

theorem localRun_rewrite {old : List UInt8} (hc : c.kind = .file old) :
    localRun ((if old.length ≠ content.length then [truncateFile p content.length] else []) ++
        writesFrom p 0 content) (some c) = some (some { c with kind := .file content }) := by
  have hwrite : ∀ (old : List UInt8) (c : Entry), c.kind = .file old → old.length = content.length →
      localRun (writesFrom p 0 content) (some c) = some (some { c with kind := .file content }) := by
    intro old c hc hlen
    rw [localRun_writesFrom hc]
    split
    next hnil =>
      rw [hnil, length_nil, length_eq_zero_iff] at hlen
      rw [hlen, hnil]
    · rw [splice_zero hlen.le]
  rw [localRun_append]
  split
  · rw [localRun_truncateFile (by rw [Entry.changeContent, hc]), bind_some]
    exact hwrite _ { c with kind := .file (resize content.length old) } rfl length_resize
  next heq =>
    rw [ne_eq, not_not] at heq
    exact hwrite old c hc heq

/-- Over a symbolic link the calls do nothing. -/
theorem localRun_rewrite_link {size : Nat} {target : String}
    (hc : c.kind = .symlink target) :
    localRun ((if size ≠ content.length then [truncateFile p content.length] else []) ++
        writesFrom p 0 content) (some c) = some (some c) := by
  rw [localRun_append]
  split
  · rw [localRun_truncateFile (by rw [Entry.changeContent, hc]), bind_some]
    exact localRun_writesFrom_link hc
  · rw [localRun_nil, bind_some]
    exact localRun_writesFrom_link hc

/-! The result. -/

/-- What is made of a file that is in both layers, or of a symbolic link that a file took the place of. -/
theorem outcomeOfFile_of_localRun {e : LocalEntry} {l : LocalEntry} {new : Option Entry} (hdir : l.isDir = false)
    (h : localRun ((scanModified p e content l).writes ++ (scanModified p e content l).attrs) (some l.seen) = some new) :
    new = some (outcomeOfFile e content l) := by
  have hempty : scanXAttrs [] e.ownXattrs l.ownXattrs = [] ↔ scanXAttrs p e.ownXattrs l.ownXattrs = [] := by
    rw [scanXAttrs_eq_nil, scanXAttrs_eq_nil]
  have hself : changedXattrs e.ownXattrs l.ownXattrs l.seen.xattrs = fun name => e.ownXattrs.lookup name :=
    changedXattrs_self _ _
  unfold scanModified at h
  unfold outcomeOfFile
  simp only [hempty]
  by_cases hsame : l.size = content.length ∧ l.mtime = e.mtime
  · simp only [if_pos hsame, nil_append] at h ⊢
    split at h
    next hnil =>
      rw [if_pos hnil]
      exact (some.inj h).symm
    next hsome =>
      rw [if_neg hsome]
      rw [localRun_setAttr, hself] at h
      exact (some.inj h).symm
  · simp only [if_neg hsame] at h ⊢
    cases hkind : l.kind with
    | dir => rw [isDir_iff.mpr hkind] at hdir; cases hdir
    | file old =>
      have hsize : l.size = old.length := by rw [size, hkind]
      rw [localRun_append, hsize, localRun_rewrite (c := l.seen) hkind, bind_some, localRun_setAttr, hself] at h
      exact (some.inj h).symm
    | symlink target =>
      rw [localRun_append, localRun_rewrite_link (c := l.seen) hkind, bind_some, localRun_setAttr, hself] at h
      rw [← some.inj h]
      simp only [updated, Entry.setAttr, seen, hkind]

/-- What the operations of one entry make of the entry of `lower`. -/
theorem outcome_of_steps {e : LocalEntry} {crs : List FileOp} {b new : Option Entry}
    (hcrs : crs.Perm (scanEntry p e (lower.lookup p) (lower.lookup p) none).creations)
    (hsteps : StepsAt replayOp (GroupsKept lower) p crs ((lower.lookup p).map seen) b)
    (hlocal : localRun ((scanEntry p e (lower.lookup p) (lower.lookup p) none).writes ++
      (scanEntry p e (lower.lookup p) (lower.lookup p) none).attrs) b = some new) : new = some (outcome lower p e) := by
  -- a list of one creation
  have hone {op : FileOp} {a : Option Entry} (hop : op.path = p) (hperm : crs.Perm [op])
      (hsteps : StepsAt replayOp (GroupsKept lower) p crs a b) : ∃ t, GroupsKept lower t ∧ op.effect
      (t.parentDir p) a = some b := by
    rw [perm_singleton.mp hperm] at hsteps
    obtain ⟨t, c, ht, heffect, hlast⟩ := of_stepsAt_cons hsteps hop
    rw [← of_stepsAt_nil hlast] at heffect
    exact ⟨t, ht, heffect⟩
  have hnil {a : Option Entry} (hperm : crs.Perm []) (hsteps : StepsAt replayOp (GroupsKept lower) p crs a b) : b = a := by
    rw [perm_nil.mp hperm] at hsteps
    exact of_stepsAt_nil hsteps
  unfold scanEntry at hcrs hlocal
  unfold outcome
  cases hkind : e.kind with rw [hkind] at hcrs hlocal
  | dir =>
    simp only [nil_append] at hlocal
    cases hl : lower.lookup p with
    | none =>
      simp only [hl, true_and, if_true] at hcrs hlocal hsteps
      obtain ⟨t, ht, heffect⟩ := hone rfl hcrs hsteps
      rw [of_mkdir ht hkind heffect, localRun_setAttr] at hlocal
      cases hlocal
      simp only [updated, baselineOf, ← changedXattrs_empty]
      rfl
    | some l =>
      simp only [hl, reduceCtorEq, false_and, if_false, map_some] at hcrs hlocal hsteps
      rw [hnil hcrs hsteps, localRun_setAttr] at hlocal
      cases hlocal
      simp only [updated, baselineOf, ← changedXattrs_self e.ownXattrs l.ownXattrs]
      rfl
  | symlink target =>
    simp only [nil_append] at hlocal
    cases hl : lower.lookup p with
    | none =>
      simp only [hl, if_true, replaces, nil_append] at hcrs hlocal hsteps
      obtain ⟨t, ht, heffect⟩ := hone rfl hcrs hsteps
      rw [of_symlink ht hkind heffect, localRun_scanXAttrs] at hlocal
      cases hlocal
      simp only [baselineOf, ← changedXattrs_empty]
      rfl
    | some l =>
      simp only [hl, if_true, map_some] at hcrs hlocal hsteps
      obtain ⟨t, ht, heffect⟩ := of_stepsAt_replaces hcrs rfl (fun _ => rfl) hsteps
      rw [of_symlink ht hkind heffect, localRun_scanXAttrs] at hlocal
      cases hlocal
      rfl
  | file content =>
    -- what is made of a new file
    have hnew : ∀ {t : Tree} {x : AList fun _ : String => List UInt8}, GroupsKept lower t →
        (createFile p (goMode e.mode) e.uid e.gid (content.take readSize)).effect (t.parentDir p) none = some b →
        localRun (writesFrom p readSize (content.drop readSize) ++ e.setAttr p :: scanXAttrs p e.ownXattrs x) b =
          some new →
        new = some { updated (created lower p e) e with xattrs := changedXattrs e.ownXattrs x fun _ => none } := by
      intro t x ht heffect hlocal
      have hrest := localRun_rest (p := p) (c := { created lower p e with kind := .file (content.take readSize) }) rfl
      rw [of_createFile ht hkind heffect, localRun_append, hrest, bind_some, localRun_setAttr] at hlocal
      cases hlocal
      simp only [updated, created, Entry.setAttr, hkind]
    cases hl : lower.lookup p with
    | none =>
      simp only [hl, scanNewFile, replaces, nil_append] at hcrs hlocal hsteps
      obtain ⟨t, ht, heffect⟩ := hone rfl hcrs hsteps
      rw [hnew ht heffect hlocal, baselineOf, changedXattrs_empty]
      rfl
    | some l =>
      simp only [hl, map_some] at hcrs hlocal hsteps
      cases hdir : l.isDir with
      | true =>
        simp only [hdir, if_true, scanNewFile] at hcrs hlocal
        have hfails (parent) : (createFile p (goMode e.mode) e.uid e.gid (content.take readSize)).effect parent
            (some l.seen) = none := by
          cases parent with
          | none => rfl
          | some d => simp only [effect, bind_some, seen, isDir_iff.mp hdir]
        obtain ⟨t, ht, heffect⟩ := of_stepsAt_replaces hcrs rfl hfails hsteps
        rw [hnew ht heffect hlocal]
        simp only [hdir, if_true]
        rfl
      | false =>
        simp only [hdir, Bool.false_eq_true, if_false] at hcrs hlocal ⊢
        have hcrs' : (scanModified p e content l).creations = [] := by
          unfold scanModified
          split <;> rfl
        rw [hcrs'] at hcrs
        rw [hnil hcrs hsteps] at hlocal
        exact outcomeOfFile_of_localRun hdir hlocal

section
variable {links : Links} {lower : Layer} {upper : UpperLayer} {ops : List FileOp} {t₀ t : Tree}

/-- An entry of `upper` comes out as `outcome` says. -/
theorem lookup_of_entry (hu : upper.WellFormed) (h₀ : t₀.Mirrors lower) (hscan : IsScan links lower upper {} ops)
    (h : replayOperations t₀ ops = some t) {p : Path} (hne : p ≠ []) {e : LocalEntry} {hides : Bool}
    (hp : upper.lookup p = some (.entry e hides)) (hlstat : lstat links lower p = lower.lookup p) :
    t.lookup p = some (outcome lower p e) := by
  obtain ⟨crs, b, hcrs, hsteps, hlocal⟩ :=
    steps_of_replay hu (fun t op t' hop ht => ht.step hop) (groupsKept_of_mirrors h₀) hscan h p
  rw [if_neg (not_deleted_of_entry hu hp), h₀ p] at hsteps
  rw [scanAt_of_entry hu hp hne, hlstat] at hcrs hlocal
  exact outcome_of_steps hcrs hsteps hlocal

/-- Where `upper` has no entry, nothing but a deletion happens. -/
theorem lookup_of_no_ops {manifest : CheckpointManifest} (hu : upper.WellFormed)
    (hscan : IsScan links lower upper manifest ops) (h : replayOperations t₀ ops = some t) {p : Path}
    (hp : ∀ e hides, upper.lookup p ≠ some (.entry e hides)) :
    t.lookup p = if ∃ op ∈ deletions links lower upper manifest, op.path = p then none else t₀.lookup p := by
  obtain ⟨crs, b, hcrs, hsteps, hlocal⟩ :=
    steps_of_replay (I := fun _ => True) hu (fun _ _ _ _ _ _ => trivial) trivial hscan h p
  rw [scanAt_of_no_entry hp] at hcrs hlocal
  rw [perm_nil.mp hcrs] at hsteps
  rw [← of_stepsAt_nil hsteps]
  exact (some.inj hlocal).symm

end

end InClusterStorage.Daemon
