import Mathlib.Data.Finset.Basic
import InClusterStorage.Lib.Runs
import InClusterStorage.Lib.Table

/- What `ObjectFS` remembers of the names and inodes that it returned to the kernel
   (`fuse/fs.go`), to notify the kernel of all of them after a reconnect.

   A name is forgotten with any inode that was returned for it, also with one that another
   has replaced. `dentries_tracked_iff`: all names are remembered exactly if that does not
   happen and no reply is without parent or name. The counts are right in any case; that they
   do not exceed 64 bits is assumed. -/
namespace InClusterStorage.Node

open Function Table Runs

abbrev DentryKey := Nat × List UInt8

structure Lookups where
  lookups : AList fun _ : Nat => Nat := ∅
  dentries : Finset DentryKey := ∅
  childDentries : AList fun _ : Nat => Finset DentryKey := ∅

namespace Lookups

def lookupCount (fs : Lookups) (nodeid : Nat) : Nat := (fs.lookups.lookup nodeid).getD 0

def dentriesOf (fs : Lookups) (childIno : Nat) : Finset DentryKey := (fs.childDentries.lookup childIno).getD ∅

def trackDentryLocked (parent : Nat) (name : List UInt8) (childIno : Nat) (fs : Lookups) : Lookups :=
  if parent = 0 ∨ name = [] ∨ childIno = 0 then fs
  else
    { fs with
      dentries := insert (parent, name) fs.dentries
      childDentries := fs.childDentries.insert childIno (insert (parent, name) (fs.dentriesOf childIno)) }

/-- The last part of `fillEntryOut`; without an inode the number is 0. -/
def fillEntryOut (parent : Nat) (name : List UInt8) (nodeId : Nat) (fs : Lookups) : Lookups :=
  if nodeId ≠ 0 then
    let fs := { fs with lookups := fs.lookups.insert nodeId (fs.lookupCount nodeId + 1) }
    if parent ≠ 0 ∧ name ≠ [] then fs.trackDentryLocked parent name nodeId else fs
  else fs

def forget (nodeid nlookup : Nat) (fs : Lookups) : Lookups :=
  if nodeid = 0 ∨ nlookup = 0 then fs
  else if fs.lookupCount nodeid ≤ nlookup then
    { lookups := fs.lookups.erase nodeid
      dentries := fs.dentries \ fs.dentriesOf nodeid
      childDentries := fs.childDentries.erase nodeid }
  else { fs with lookups := fs.lookups.insert nodeid (fs.lookupCount nodeid - nlookup) }

end Lookups

/-- The node beside the kernel. -/
structure Kernel where
  fs : Lookups := {}
  /-- how many replies with the inode are not forgotten -/
  held : Nat → Nat := fun _ => 0
  /-- the inode that was returned last for a name, as long as it is held -/
  bound : DentryKey → Option Nat := fun _ => none

inductive KernelEvent where
  | reply (parent : Nat) (name : List UInt8) (ino : Nat)
  | forget (ino n : Nat)
  deriving DecidableEq, Repr

namespace Kernel

def step (x : Kernel) : KernelEvent → Option Kernel
  | .reply parent name ino =>
    let fs := x.fs.fillEntryOut parent name ino
    if ino = 0 then some { x with fs }
    else some
      { fs
        held := update x.held ino (x.held ino + 1)
        bound := update x.bound (parent, name) (some ino) }
  | .forget ino n =>
    if ino ≠ 0 ∧ n ≤ x.fs.lookupCount ino then some
      { fs := x.fs.forget ino n
        held := update x.held ino (x.held ino - n)
        bound := fun key => (x.bound key).filter fun i => ¬ (i = ino ∧ x.held ino = n) }
    else none

/-- The counts are right, and every name with an inode that is held is remembered. -/
def Tracked (x : Kernel) : Prop :=
  (∀ ino, x.fs.lookupCount ino = x.held ino) ∧ ∀ key ino, x.bound key = some ino → key ∈ x.fs.dentries

/-- A reply has parent and name. An inode that is forgotten was returned for no name that
belongs to another one by now. -/
def Unshared (x : Kernel) : KernelEvent → Prop
  | .reply parent name ino => ino ≠ 0 → parent ≠ 0 ∧ name ≠ []
  | .forget ino n => n ≠ 0 → x.fs.lookupCount ino ≤ n →
    ∀ key ∈ x.fs.dentriesOf ino, ∀ other, x.bound key = some other → other = ino

/-- What is remembered has parent and name. -/
def Named (x : Kernel) : Prop := ∀ key ∈ x.fs.dentries, key.1 ≠ 0 ∧ key.2 ≠ []

variable {x x' : Kernel} {ino : Nat}

theorem lookupCount_insert (fs : Lookups) (ino n i : Nat) :
    Lookups.lookupCount { fs with lookups := fs.lookups.insert ino n } i = if i = ino then n else fs.lookupCount i := by
  unfold Lookups.lookupCount
  rw [lookup_insert]
  split <;> rfl

theorem fillEntryOut_eq (hino : ino ≠ 0) (parent : Nat) (name : List UInt8) (fs : Lookups) :
    (fs.fillEntryOut parent name ino).lookups = fs.lookups.insert ino (fs.lookupCount ino + 1) ∧
      (fs.fillEntryOut parent name ino).dentries =
        if parent ≠ 0 ∧ name ≠ [] then insert (parent, name) fs.dentries else fs.dentries := by
  unfold Lookups.fillEntryOut
  rw [if_pos hino]
  split_ifs with h
  · rw [Lookups.trackDentryLocked, if_neg (by simp [h, hino])]
    exact ⟨rfl, rfl⟩
  · exact ⟨rfl, rfl⟩

theorem forget_eq (hino : ino ≠ 0) (n : Nat) (fs : Lookups) :
    (∀ i, (fs.forget ino n).lookupCount i = if i = ino then fs.lookupCount ino - n else fs.lookupCount i) ∧
      (fs.forget ino n).dentries =
        if n ≠ 0 ∧ fs.lookupCount ino ≤ n then fs.dentries \ fs.dentriesOf ino else fs.dentries := by
  unfold Lookups.forget
  by_cases hn : n = 0
  · simp +contextual [hn]
  rw [if_neg (by simp [hino, hn])]
  by_cases hle : fs.lookupCount ino ≤ n
  · rw [if_pos hle, if_pos ⟨hn, hle⟩]
    refine ⟨fun i => ?_, rfl⟩
    rw [Nat.sub_eq_zero_of_le hle, Lookups.lookupCount, lookup_erase]
    split <;> rfl
  · rw [if_neg hle, if_neg fun h => hle h.2]
    exact ⟨lookupCount_insert fs ino _, rfl⟩

theorem reply_tracked {parent : Nat} {name : List UInt8} (hn : x.Named) (hx : x.Tracked)
    (h : x.step (.reply parent name ino) = some x') : x'.Named ∧ (x'.Tracked ↔ x.Unshared (.reply parent name ino)) := by
  by_cases hino : ino = 0
  · subst hino
    cases h
    exact ⟨hn, iff_of_true hx fun hne => absurd rfl hne⟩
  simp only [step, if_neg hino, Option.some.injEq] at h
  subst h
  obtain ⟨hlookups, hdentries⟩ := fillEntryOut_eq hino parent name x.fs
  have hcount (i) : (x.fs.fillEntryOut parent name ino).lookupCount i = update x.held ino (x.held ino + 1) i := by
    rw [Lookups.lookupCount, hlookups, update_apply, ← hx.1, ← hx.1]
    exact lookupCount_insert x.fs ino _ i
  by_cases hkey : parent ≠ 0 ∧ name ≠ []
  · rw [if_pos hkey] at hdentries
    refine ⟨fun key hmem => ?_, iff_of_true ⟨hcount, fun key i hb => ?_⟩ fun _ => hkey⟩
    · rw [hdentries] at hmem
      obtain rfl | hmem := Finset.mem_insert.mp hmem
      · exact hkey
      · exact hn key hmem
    · rw [hdentries, Finset.mem_insert]
      simp only [update_apply] at hb
      split_ifs at hb with heq
      · exact .inl heq
      · exact .inr (hx.2 key i hb)
  · -- the name is not remembered
    rw [if_neg hkey] at hdentries
    refine ⟨fun key hmem => hn key (hdentries ▸ hmem), iff_of_false (fun ht => hkey ?_) fun hok => hkey (hok hino)⟩
    exact hn (parent, name) (hdentries ▸ ht.2 _ ino (update_self ..))

theorem forget_tracked {n : Nat} (hn : x.Named) (hx : x.Tracked)
    (h : x.step (.forget ino n) = some x') : x'.Named ∧ (x'.Tracked ↔ x.Unshared (.forget ino n)) := by
  simp only [step] at h
  split_ifs at h with hle
  cases h
  obtain ⟨hforget, hdentries⟩ := forget_eq hle.1 n x.fs
  have hcount (i) : (x.fs.forget ino n).lookupCount i = update x.held ino (x.held ino - n) i := by
    rw [hforget, update_apply, hx.1, hx.1]
  simp only [Named, Tracked, Unshared, Option.filter_eq_some_iff]
  by_cases hlast : n ≠ 0 ∧ x.fs.lookupCount ino ≤ n
  · rw [if_pos hlast] at hdentries
    have hheld : x.held ino = n := (hx.1 ino).symm.trans (le_antisymm hlast.2 hle.2)
    simp only [hdentries, Finset.mem_sdiff, hheld, and_true, decide_eq_true_eq] at hcount ⊢
    refine ⟨fun key hkey => hn key hkey.1, fun ht _ _ key hkey other hb => ?_, fun hok => ⟨hcount, fun key i hb => ?_⟩⟩
    · by_contra hne
      exact (ht.2 key other ⟨hb, hne⟩).2 hkey
    · exact ⟨hx.2 key i hb.1, fun hkey => hb.2 (hok hlast.1 hlast.2 key hkey i hb.1)⟩
  · rw [if_neg hlast] at hdentries
    rw [hdentries]
    refine ⟨hn, iff_of_true ⟨hcount, fun key i hb => hx.2 key i hb.1⟩ fun hne hall => absurd ⟨hne, hall⟩ hlast⟩

/-- **Dentries.** Along every sequence of replies and calls of `Forget`, the counts are right and
every name is remembered whose last inode is still held, exactly if every reply has parent and
name and no inode is forgotten that was returned for a name of another one that is held. -/
theorem dentries_tracked_iff (events : List KernelEvent) :
    Throughout step Tracked {} events ↔ Allowed step Unshared {} events := by
  refine throughout_iff_allowed (I := Named) (fun x e x' hn hx h => ?_) events (by simp [Named]) ⟨fun _ => rfl, nofun⟩
  cases e with
  | reply parent name ino => exact reply_tracked hn hx h
  | forget ino n => exact forget_tracked hn hx h

/-- The name has another inode by the time its first one is forgotten. -/
theorem dentry_lost :
    (exec step {} [.reply 1 [97] 5, .reply 1 [97] 6, .forget 5 1]).map
      (fun x => (x.bound (1, [97]), x.fs.lookupCount 6, decide ((1, [97]) ∈ x.fs.dentries))) = some (some 6, 1, false) := by
  decide

end Kernel

end InClusterStorage.Node
