import Mathlib.Data.List.AList

/- The statistics of a view (`view.go`), and how they are loaded.

   A view keeps a statistics row, in memory and in its index. `SetIndex`, `Rebuild` and the rebuild
   of the applier replace the index and load the statistics with `loadStatsLocked`: the row of the new
   index, or else a scan of all its rows. All types are registered and the index can be read and
   written; the queue, the overlay and the cache are left out. -/
namespace InClusterStorage.Sds

variable {κ R S : Type*}

/-- A `StatsUpdateFunc`: the statistics where a row is replaced by another; `none` is an error. -/
abbrev StatsUpdate (R S : Type*) := S → Option R → Option R → Option S

structure LocalIndex (κ R S : Type*) where
  rows : AList fun _ : κ => R := ∅
  stats : Option S := none
  position : Nat := 0

/-- The statistics of a full scan, from `start`. -/
def LocalIndex.scan (update : StatsUpdate R S) (start : S) (x : LocalIndex κ R S) : Option S :=
  x.rows.entries.foldlM (fun stats e => update stats none (some e.2)) start

structure View (κ R S : Type*) where
  index : LocalIndex κ R S := {}
  statsRow : S
  appliedPos : Nat := 0
  /-- the statistics could not be loaded -/
  loadErr : Bool := false

namespace View

/-- The error stays in the view. -/
def loadStatsLocked (update : StatsUpdate R S) (v : View κ R S) : View κ R S :=
  match v.index.stats with
  | some stats => { v with statsRow := stats }
  | none =>
    match v.index.scan update v.statsRow with
    | none => { v with loadErr := true }
    | some newStats =>
      { v with
        statsRow := newStats
        index :=
          if v.index.rows.entries ≠ [] ∨ 0 < v.index.position then { v.index with stats := some newStats } else v.index }

/-- The ways to install an index. `Rebuild` and the applier say where the index stands. -/
inductive Install where
  | setIndex
  | rebuild (newPos : Nat)

def install (update : StatsUpdate R S) (v : View κ R S) (index : LocalIndex κ R S) : Install → View κ R S
  | .setIndex => loadStatsLocked update { v with index, loadErr := false, appliedPos := index.position }
  | .rebuild newPos => loadStatsLocked update { v with index, loadErr := false, appliedPos := max v.appliedPos newPos }

theorem loadStatsLocked_scan {update : StatsUpdate R S} {v : View κ R S} {total : S} (hnone : v.index.stats = none)
    (hscan : v.index.scan update v.statsRow = some total) :
    (v.loadStatsLocked update).statsRow = total ∧
      ∀ stats, (v.loadStatsLocked update).index.stats = some stats → stats = total := by
  unfold loadStatsLocked
  simp only [hnone, hscan, true_and]
  intro stats hstats
  split at hstats
  · exact (Option.some.inj hstats).symm
  · exact absurd (hnone.symm.trans hstats) (by simp)

/-- Every new index without a statistics row is counted right, however it is installed,
if and only if the view has still the initial statistics. -/
theorem install_recounts_iff (update : StatsUpdate R S) (initial : S) (v : View κ R S) :
    (∀ (index : LocalIndex κ R S) (total : S) (how : Install), index.stats = none →
        index.scan update initial = some total →
          (v.install update index how).statsRow = total ∧
            ∀ stats, (v.install update index how).index.stats = some stats → stats = total) ↔ v.statsRow = initial := by
  constructor
  · intro h
    exact (h {} initial .setIndex rfl rfl).1
  · rintro rfl index total how hnone hscan
    cases how with
    | setIndex => exact loadStatsLocked_scan hnone hscan
    | rebuild newPos => exact loadStatsLocked_scan hnone hscan

/-- A view that has counted 5 counts one row of 7 as 12. -/
theorem install_counts_on :
    ({ statsRow := 5 : View Nat Int Int }.install (fun stats old new => some (stats - old.getD 0 + new.getD 0))
      { rows := AList.singleton 1 7 } .setIndex).index.stats = some 12 := by
  decide

end View

end InClusterStorage.Sds
