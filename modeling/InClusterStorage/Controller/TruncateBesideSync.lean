import InClusterStorage.Controller.ConcurrentWrites

/- Truncates and punched holes beside a sync.

   `TruncateFile` has two critical sections, one over what is staged and one over the
   rows; `PunchHole` changes the rows after a sync of its own. Neither waits for a sync
   that has taken its snapshot and not committed it yet, and the commit takes the larger
   one of the size in the snapshot and the size in the row. The machine has no writes:
   what was written before is in the file it starts with.

   1. `cuts_stand`: in a run whose steps meet `Ordered`, once no sync is running and no
      truncate is between its sections, the row has the size of the last call that has
      returned, and what was cut off or punched reads as zero or is beyond the end.
   2. `cuts_undone`: a truncate between the snapshot and the commit is undone. -/
namespace InClusterStorage.Controller

open Bytes List Option File Runs

/-! The sections. -/

structure CutState where
  file : File
  /-- the sync between its snapshot and `finishSync` -/
  sync : Option SyncCall := none
  /-- the truncate calls between their two sections -/
  pending : List Int := []
  /-- the size after the last call that has returned -/
  returned : Option Nat := none
  /-- the positions that calls that have returned have cut off or punched -/
  cleared : Nat → Bool := fun _ => false

inductive CutEvent where
  | snapshot
  | commit
  | finish
  /-- `finishSync` with an error, before or after the commit -/
  | fail
  | truncateStaged (size : Int)
  | truncateRows (call : Nat)
  /-- the part of `PunchHole` after its `Fsync` -/
  | punchRows (p : Punch)

namespace CutState

def step (limits : Limits) (s : CutState) : CutEvent → Option CutState
  | .snapshot =>
    if s.sync.isSome ∨ s.file.stagedChunks.entries.length = 0 then none
    else some { s with file := s.file.sealActivePack, sync := some ⟨s.file.snapshot, false⟩ }
  | .commit =>
    match s.sync with
    | some ⟨snap, false⟩ =>
      some { s with file := s.file.appendSyncRecords limits snap, sync := some ⟨snap, true⟩ }
    | _ => none
  | .finish =>
    match s.sync with
    | some ⟨snap, true⟩ => some { s with file := s.file.finishSync snap, sync := none }
    | _ => none
  | .fail => if s.sync.isSome then some { s with sync := none } else none
  | .truncateStaged size =>
    some { s with file := s.file.truncateStaged limits size, pending := s.pending ++ [size] }
  | .truncateRows call =>
    match s.pending[call]? with
    | none => none
    | some size =>
      -- a negative size is EINVAL, after the first section
      if size < 0 then some { s with pending := s.pending.eraseIdx call }
      else some { s with
        file := s.file.truncateRows limits size.toNat
        pending := s.pending.eraseIdx call
        returned := some size.toNat
        cleared := fun p => decide (size.toNat ≤ p) || s.cleared p }
  | .punchRows p =>
    if p.length = 0 then none
    else some { s with
      file := s.file.punchRows limits p
      returned := s.returned.map p.sizeAfter
      cleared := fun q => decide (p.offset ≤ q ∧ q < p.stop) || s.cleared q }

/-- What a running sync has still to commit. -/
def uncommitted (s : CutState) : Option Snapshot :=
  match s.sync with
  | some ⟨snap, false⟩ => some snap
  | _ => none

/-- No call that has returned is undone. -/
def Stands (limits : Limits) (s : CutState) : Prop :=
  s.sync = none → s.pending = [] →
    (∀ size ∈ s.returned, s.file.row.size = size) ∧
      ∀ p, s.cleared p = true → s.file.readFile limits p 1 = [0] ∨ s.file.readFile limits p 1 = []

/-- The last section of a truncate finds nothing staged and nothing to be committed that
is larger than its size; that of a punch nothing at all. -/
def Ordered (s : CutState) : CutEvent → Prop
  | .truncateRows call => ∀ size ∈ s.pending[call]?,
      s.file.stagedSize.getD 0 ≤ size.toNat ∧ ∀ snap ∈ s.uncommitted, snap.size ≤ size.toNat
  | .punchRows _ => s.file.stagedChunks.entries.length = 0 ∧ s.uncommitted.isNone
  | _ => True

instance (s : CutState) (e : CutEvent) : Decidable (s.Ordered e) := by
  unfold Ordered
  split <;> infer_instance

end CutState

/-! The invariant. -/

/-- A byte of a staged chunk is zero, if there is one. -/
def ZeroAt (cs p : Nat) (chunks : AList fun _ : Nat => StagedChunkReference) : Prop :=
  ∀ r, chunks.lookup (p / cs) = some r → byteAt r.data (p % cs) = 0

/-- What holds beside a sync. As there are no writes, no more is staged than its
snapshot holds. -/
inductive BesideSync (cs : Nat) (f : File) : Option SyncCall → Prop where
  | idle : BesideSync cs f none
  | taken {snap : Snapshot} (ok : SnapshotOk cs snap)
      (within : ∀ i r, f.stagedChunks.lookup i = some r → (snap.chunks.lookup i).isSome)
      (inline : f.inlineData ≠ [] → (snap.chunks.lookup 0).isSome) : BesideSync cs f (some ⟨snap, false⟩)
  | written {snap : Snapshot} (small : f.inlineData ≠ [] → ∀ i r, f.stagedChunks.lookup i = some r → i = 0) :
      BesideSync cs f (some ⟨snap, true⟩)

structure CutsOk (limits : Limits) (cs : Nat) (s : CutState) : Prop where
  rows : RowsOk limits cs s.file
  staged : StagedOk cs s.file
  sync : BesideSync cs s.file s.sync
  cleared : ∀ p, s.cleared p = true → s.file.committedByte cs p = 0 ∧ ZeroAt cs p s.file.stagedChunks ∧
    ∀ snap ∈ s.uncommitted, ZeroAt cs p snap.chunks
  /-- a truncate to a negative size does not count -/
  settled : (∀ m ∈ s.pending, m < 0) → ∀ size ∈ s.returned,
    s.file.row.size = size ∧ s.file.stagedSize.getD 0 ≤ size ∧ ∀ snap ∈ s.uncommitted, snap.size ≤ size

section Invariant

variable {limits : Limits} {cs : Nat} {s s' : CutState}

theorem zeroAt_of_fits {size p : Nat} {chunks : AList fun _ : Nat => StagedChunkReference} (hcs : 0 < cs)
    (hfits : ∀ i r, chunks.lookup i = some r → i * cs + r.data.length ≤ size) (hp : size ≤ p) : ZeroAt cs p chunks := by
  intro r hr
  have hsplit := div_mul_add_mod hcs p
  have hlen := hfits _ r hr
  apply byteAt_of_length_le
  omega

theorem CutsOk.stands (h : CutsOk limits cs s) : s.Stands limits := by
  intro _ hpending
  constructor
  · intro size hsize
    exact (h.settled (by simp [hpending]) size hsize).1
  · intro p hp
    rw [h.rows.readFile_one, (h.cleared p hp).1]
    split
    · exact .inl rfl
    · exact .inr rfl

theorem zeroAt_of_none {p : Nat} {chunks : AList fun _ : Nat => StagedChunkReference}
    (hnone : ∀ i, chunks.lookup i = none) : ZeroAt cs p chunks := by
  intro r hr
  rw [hnone] at hr
  simp at hr

theorem StagedOk.fits_stagedSize {f : File} (h : StagedOk cs f) {i : Nat} {r : StagedChunkReference}
    (hr : f.stagedChunks.lookup i = some r) : i * cs + r.data.length ≤ f.stagedSize.getD 0 := by
  rw [h.stagedSize_eq hr]
  exact h.fits i r hr

section

variable (h : CutsOk limits cs s)
include h

theorem CutsOk.snapshot
    (hstaged : s.file.stagedChunks.entries.length ≠ 0) :
    CutsOk limits cs { s with file := s.file.sealActivePack, sync := some ⟨s.file.snapshot, false⟩ } := by
  obtain ⟨hok, _⟩ := h.staged.snapshot (Nat.pos_of_ne_zero hstaged)
  obtain ⟨i, r, hr⟩ := Table.length_pos.mp (Nat.pos_of_ne_zero hstaged)
  constructor
  case rows => exact h.rows.restaged s.file.stagedChunks s.file.stagedSize (s.file.packID + 1)
  case staged => exact h.staged.sealActivePack
  case sync =>
    apply BesideSync.taken hok
    · intro j r' hr'
      exact isSome_of_eq_some hr'
    · exact fun hne => h.staged.inline hne ⟨i, r, hr⟩
  case cleared =>
    intro p hp
    obtain ⟨hrows, hzero, _⟩ := h.cleared p hp
    refine ⟨hrows, hzero, ?_⟩
    rintro snap ⟨⟩
    exact hzero
  case settled =>
    intro hneg size hsize
    obtain ⟨hrow, hstagedSize, _⟩ := h.settled hneg size hsize
    refine ⟨hrow, hstagedSize, ?_⟩
    rintro snap ⟨⟩
    exact hstagedSize

theorem CutsOk.commit {snap : Snapshot} (hsync : s.sync = some ⟨snap, false⟩) :
    CutsOk limits cs { s with file := s.file.appendSyncRecords limits snap, sync := some ⟨snap, true⟩ } := by
  have hbeside := h.sync
  have huncommitted : s.uncommitted = some snap := by rw [CutState.uncommitted, hsync]
  rw [hsync] at hbeside
  cases hbeside with
  | taken hok hwithin hinline =>
    have hc := commits h.rows hok hinline
    generalize s.file.appendSyncRecords limits snap = f' at hc
    have hchunks : f'.stagedChunks = s.file.stagedChunks := by rw [hc.frame]
    -- inline data is written from a snapshot of chunk 0
    have hsmall : f'.inlineData ≠ [] → ∀ i r, s.file.stagedChunks.lookup i = some r → i = 0 := by
      intro hne i r hr
      obtain ⟨r', hr'⟩ := isSome_iff_exists.mp (hwithin i r hr)
      have hrowSize := hc.inline hne
      have hmax := h.rows.maxInline
      rw [hc.size] at hrowSize
      exact hok.index_eq_zero (by omega) hr'
    constructor
    case rows => exact hc.rows
    case staged =>
      apply h.staged.of_rows hc.frame
      rintro hne ⟨i, r, hr⟩
      rw [← hsmall hne i r hr, hr]
      rfl
    case sync => exact .written fun hne i r hr => hsmall hne i r (hchunks ▸ hr)
    case cleared =>
      intro p hp
      obtain ⟨hrows, hzero, hsnap⟩ := h.cleared p hp
      refine ⟨?_, hchunks ▸ hzero, by rintro snap' ⟨⟩⟩
      rw [committedByte]
      cases hs : snap.chunks.lookup (p / cs) with
      | none => rw [hc.others _ hs, ← committedByte, hrows]
      | some r =>
        rw [hc.snapped _ r hs]
        split
        · exact byteAt_nil
        · exact hsnap snap huncommitted r hs
    case settled =>
      intro hneg size hsize
      obtain ⟨hrow, hstagedSize, hsnapSize⟩ := h.settled hneg size hsize
      refine ⟨?_, ?_, by rintro snap' ⟨⟩⟩
      · show f'.row.size = size
        have := hsnapSize snap huncommitted
        rw [hc.size, hrow]
        omega
      · show f'.stagedSize.getD 0 ≤ size
        rwa [hc.frame]

theorem CutsOk.fail : CutsOk limits cs { s with sync := none } := by
  refine ⟨h.rows, h.staged, .idle, ?_, ?_⟩
  · intro p hp
    obtain ⟨hrows, hzero, _⟩ := h.cleared p hp
    exact ⟨hrows, hzero, by rintro snap ⟨⟩⟩
  · intro hneg size hsize
    obtain ⟨hrow, hstagedSize, _⟩ := h.settled hneg size hsize
    exact ⟨hrow, hstagedSize, by rintro snap ⟨⟩⟩

theorem CutsOk.finish {snap : Snapshot} (hsync : s.sync = some ⟨snap, true⟩) :
    CutsOk limits cs { s with file := s.file.finishSync snap, sync := none } := by
  have hbeside := h.sync
  rw [hsync] at hbeside
  cases hbeside with
  | written hsmall =>
    have hre := restaged_finishSync h.staged.sized snap
    have hleft := s.file.finishSync_left snap
    generalize s.file.finishSync snap = f' at hre hleft
    constructor
    case rows =>
      rw [hre.frame]
      exact h.rows.restaged _ _ s.file.packID
    case staged =>
      apply h.staged.of_restaged hre hleft
      rintro hne ⟨i, r, hr⟩
      rw [← hsmall hne i r (hleft i r hr), hr]
      rfl
    case sync => exact .idle
    case cleared =>
      intro p hp
      obtain ⟨hrows, hzero, _⟩ := h.cleared p hp
      refine ⟨?_, fun r hr => hzero r (hleft _ r hr), by rintro snap' ⟨⟩⟩
      rwa [hre.frame]
    case settled =>
      intro hneg size hsize
      obtain ⟨hrow, hstagedSize, _⟩ := h.settled hneg size hsize
      refine ⟨?_, ?_, by rintro snap' ⟨⟩⟩
      · show f'.row.size = size
        rwa [hre.frame]
      · show f'.stagedSize.getD 0 ≤ size
        cases hs : f'.stagedSize with
        | none => exact Nat.zero_le _
        | some staged =>
          rwa [hre.size staged hs] at hstagedSize

end

/-- A negative size drops what is staged, as zero does. -/
theorem File.truncateStagedChunk_toNat (cs : Nat) (size : Int) :
    truncateStagedChunk cs size = truncateStagedChunk cs (size.toNat : Nat) := by
  rcases Int.lt_or_le size 0 with hneg | hpos
  · have hzero : size.toNat = 0 := by omega
    funext f i
    unfold truncateStagedChunk
    cases f.stagedChunks.lookup i with
    | none => rfl
    | some r =>
      have hmul : (0 : Int) ≤ i * cs := Int.mul_nonneg (Int.natCast_nonneg i) (Int.natCast_nonneg _)
      simp only
      rw [if_pos (by omega), if_pos (by omega)]
  · rw [Int.toNat_of_nonneg hpos]

theorem File.truncateStaged_toNat (f : File) (size : Int) :
    f.truncateStaged limits size = f.truncateStaged limits (size.toNat : Nat) := by
  simp only [truncateStaged, Int.toNat_natCast, ← truncateStagedChunk_toNat]

section

variable (h : CutsOk limits cs s)
include h

theorem CutsOk.truncateStaged (hcs : limits.volumeChunkSize = cs) (size : Int) :
    CutsOk limits cs { s with file := s.file.truncateStaged limits size, pending := s.pending ++ [size] } := by
  have hcuts : Cuts cs size.toNat s.file (s.file.truncateStaged limits size.toNat) :=
    cuts_truncateStaged h.staged fun _ _ _ => by rw [hcs]
  rw [s.file.truncateStaged_toNat]
  generalize s.file.truncateStaged limits (size.toNat : Nat) = f' at hcuts ⊢
  have hinline : f'.inlineData = s.file.inlineData := by rw [hcuts.frame]; rfl
  have hleft (i r') (hr' : f'.stagedChunks.lookup i = some r') : ∃ r, s.file.stagedChunks.lookup i = some r := by
    obtain ⟨_, r, hr, _⟩ := hcuts.left i r' hr'
    exact ⟨r, hr⟩
  constructor
  case rows =>
    rw [hcuts.frame]
    exact h.rows.restaged _ _ s.file.packID
  case staged => exact h.staged.cuts hcuts
  case sync =>
    have hbeside := h.sync
    generalize s.sync = sync at hbeside ⊢
    cases hbeside with
    | idle => exact .idle
    | taken hok hwithin hsnap =>
      apply BesideSync.taken hok
      · intro i r' hr'
        obtain ⟨r, hr⟩ := hleft i r' hr'
        exact hwithin i r hr
      · exact hinline ▸ hsnap
    | written hsmall =>
      apply BesideSync.written
      intro hne i r' hr'
      obtain ⟨r, hr⟩ := hleft i r' hr'
      exact hsmall (hinline ▸ hne) i r hr
  case cleared =>
    intro p hp
    obtain ⟨hrows, hzero, hsnap⟩ := h.cleared p hp
    refine ⟨?_, ?_, hsnap⟩
    · show f'.committedByte cs p = 0
      rwa [hcuts.frame]
    · intro r' hr'
      obtain ⟨_, r, hr, hdata, _⟩ := hcuts.left _ r' hr'
      rw [hdata, byteAt_take, hzero r hr]
      exact ite_self 0
  case settled =>
    intro hneg size' hsize'
    have hsize : size < 0 := hneg size (mem_append_right _ mem_cons_self)
    obtain ⟨hrow, _, hsnap⟩ := h.settled (fun m hm => hneg m (mem_append_left _ hm)) size' hsize'
    refine ⟨?_, ?_, hsnap⟩
    · show f'.row.size = size'
      rwa [hcuts.frame]
    · show f'.stagedSize.getD 0 ≤ size'
      cases hs : f'.stagedSize with
      | none => exact Nat.zero_le _
      | some staged =>
        rw [hcuts.size staged hs]
        show size.toNat ≤ size'
        omega

theorem CutsOk.truncateRows {size : Nat} (pending : List Int)
    (hstaged : s.file.stagedSize.getD 0 ≤ size) (hsnaps : ∀ snap ∈ s.uncommitted, snap.size ≤ size) :
    CutsOk limits cs { s with
      file := s.file.truncateRows limits size
      pending := pending
      returned := some size
      cleared p := decide (size ≤ p) || s.cleared p } := by
  have htrunc := truncates h.rows size
  generalize s.file.truncateRows limits size = f' at htrunc ⊢
  have hchunks : f'.stagedChunks = s.file.stagedChunks := by rw [htrunc.frame]
  have hfits (i r) (hr : s.file.stagedChunks.lookup i = some r) : i * cs + r.data.length ≤ size :=
    le_trans (h.staged.fits_stagedSize hr) hstaged
  have hlt (i r) (hr : s.file.stagedChunks.lookup i = some r) : i * cs < size := by
    have hlen := length_pos_iff.mpr (h.staged.nonempty i r hr)
    have := hfits i r hr
    omega
  have hmax := h.rows.maxInline
  constructor
  case rows => exact htrunc.rows
  case staged => exact h.staged.truncates htrunc hlt
  case sync =>
    have hbeside := h.sync
    unfold CutState.uncommitted at hsnaps
    generalize s.sync = sync at hbeside hsnaps ⊢
    cases hbeside with
    | idle => exact .idle
    | taken hok hwithin hsnap =>
      apply BesideSync.taken hok (hchunks ▸ hwithin)
      intro hne
      rcases htrunc.inline hne with hsmall | hbefore
      · obtain ⟨i, r, hr⟩ := hok.taken
        have hsize := hsnaps _ rfl
        rw [← hok.index_eq_zero (by omega) hr, hr]
        rfl
      · exact hsnap hbefore
    | written hsmall =>
      apply BesideSync.written
      rw [hchunks]
      intro hne i r hr
      rcases htrunc.inline hne with hsmallSize | hbefore
      · by_contra hi
        have := Nat.mul_le_mul_right cs (Nat.pos_of_ne_zero hi)
        have := hlt i r hr
        omega
      · exact hsmall hbefore i r hr
  case cleared =>
    intro p hp
    rw [htrunc.bytes, hchunks]
    by_cases hcut : size ≤ p
    · refine ⟨if_neg (by omega), zeroAt_of_fits h.rows.pos hfits hcut, ?_⟩
      intro snap hsnap
      have hbeside := h.sync
      have hsize := hsnaps snap hsnap
      unfold CutState.uncommitted at hsnap
      generalize s.sync = sync at hbeside hsnap
      cases hbeside with
      | idle | written _ => simp at hsnap
      | taken hok _ _ =>
        cases hsnap
        exact zeroAt_of_fits h.rows.pos hok.fits (le_trans hsize hcut)
    · obtain ⟨hrows, hzero, hsnap⟩ := h.cleared p (by simpa [hcut] using hp)
      exact ⟨(if_pos (by omega)).trans hrows, hzero, hsnap⟩
  case settled =>
    rintro _ size' ⟨⟩
    refine ⟨htrunc.rowSize, ?_, hsnaps⟩
    rwa [htrunc.frame]

theorem CutsOk.punchRows {p : Punch} (hpos : 0 < p.length)
    (hstaged : s.file.stagedChunks.entries.length = 0) (hidle : s.uncommitted = none) :
    CutsOk limits cs { s with
      file := s.file.punchRows limits p
      returned := s.returned.map p.sizeAfter
      cleared q := decide (p.offset ≤ q ∧ q < p.stop) || s.cleared q } := by
  have hpunch := punches h.rows hpos
  have hnone := Table.length_eq_zero.mp hstaged
  generalize s.file.punchRows limits p = f' at hpunch ⊢
  have hnone' : ∀ i, f'.stagedChunks.lookup i = none := by
    rwa [hpunch.frame]
  constructor
  case rows => exact hpunch.rows
  case staged =>
    apply h.staged.of_rows hpunch.frame
    rintro _ ⟨i, r, hr⟩
    rw [hnone] at hr
    simp at hr
  case sync =>
    have hbeside := h.sync
    unfold CutState.uncommitted at hidle
    generalize s.sync = sync at hbeside hidle ⊢
    cases hbeside with
    | idle => exact .idle
    | taken _ _ _ => simp at hidle
    | written _ =>
      apply BesideSync.written
      intro _ i r hr
      rw [hnone'] at hr
      simp at hr
  case cleared =>
    intro q hq
    refine ⟨?_, zeroAt_of_none hnone', ?_⟩
    · show f'.committedByte cs q = 0
      rw [hpunch.bytes]
      split
      case isTrue => rfl
      case isFalse hout => exact (h.cleared q (by simpa [hout] using hq)).1
    · intro snap hsnap
      exact absurd (hidle.symm.trans hsnap) (by simp)
  case settled =>
    intro hneg size' hsize'
    obtain ⟨size, hsize, rfl⟩ := map_eq_some_iff.mp hsize'
    obtain ⟨hrow, _, _⟩ := h.settled hneg size hsize
    refine ⟨hrow ▸ hpunch.rowSize, ?_, ?_⟩
    · show f'.stagedSize.getD 0 ≤ _
      rw [hpunch.frame, stagedSize_eq_none h.staged.sized hstaged]
      exact Nat.zero_le _
    · intro snap hsnap
      exact absurd (hidle.symm.trans hsnap) (by simp)

theorem CutsOk.step (hcs : limits.volumeChunkSize = cs) {e : CutEvent} (hok : s.Ordered e)
    (hs : s.step limits e = some s') : CutsOk limits cs s' := by
  cases e with simp only [CutState.step] at hs
  | snapshot =>
    split at hs
    case isTrue => simp at hs
    case isFalse hstart =>
      cases hs
      exact h.snapshot fun hstaged => hstart (.inr hstaged)
  | commit =>
    split at hs
    case h_1 snap hsync =>
      cases hs
      exact h.commit hsync
    case h_2 => simp at hs
  | finish =>
    split at hs
    case h_1 snap hsync =>
      cases hs
      exact h.finish hsync
    case h_2 => simp at hs
  | fail =>
    split at hs
    case isTrue =>
      cases hs
      exact h.fail
    case isFalse => simp at hs
  | truncateStaged size =>
    cases hs
    exact h.truncateStaged hcs size
  | truncateRows call =>
    split at hs
    case h_1 => simp at hs
    case h_2 size hcall =>
      split at hs <;> cases hs
      · rename_i hneg
        refine ⟨h.rows, h.staged, h.sync, h.cleared, fun hothers => h.settled fun m hm => ?_⟩
        -- the call that fails has a negative size, too
        obtain ⟨i, hi⟩ := mem_iff_getElem?.mp hm
        rcases eq_or_ne i call with rfl | hne
        · rw [hcall] at hi
          cases hi
          exact hneg
        · exact hothers m (mem_eraseIdx_iff_getElem?.mpr ⟨i, hne, hi⟩)
      · obtain ⟨hstaged, hsnaps⟩ := hok size hcall
        exact h.truncateRows _ hstaged hsnaps
  | punchRows p =>
    split at hs
    case isTrue => simp at hs
    case isFalse hlength =>
      cases hs
      exact h.punchRows (Nat.pos_of_ne_zero hlength) hok.1 (isNone_iff_eq_none.mp hok.2)

end

end Invariant

/-- **Cuts and holes stand.** From every file in order, with anything staged and any
truncates under way, along every run whose steps meet `Ordered`. -/
theorem cuts_stand {limits : Limits} {f : File} (h : WellFormed limits limits.volumeChunkSize f) (pending : List Int)
    {events : List CutEvent} (hrun : Allowed (CutState.step limits) CutState.Ordered { file := f, pending } events) :
    Throughout (CutState.step limits) (CutState.Stands limits) { file := f, pending } events := by
  have hinit : CutsOk limits limits.volumeChunkSize { file := f, pending } := by
    refine ⟨h.rows, h.staged, .idle, ?_, ?_⟩
    · exact fun p hp => absurd hp (by simp)
    · exact fun _ size hsize => absurd hsize (by simp)
  exact Allowed.throughout (fun s hi => hi.stands) (fun s e s' hi hok hs => hi.step rfl hok hs) hinit hrun

/-- Four bytes are staged and a sync takes its snapshot; a truncate to six bytes returns
before the commit, and a hole is punched after the sync. -/
theorem cuts_stand_growing :
    let f := (Limits.mk 4 2).emptyFile.writeFile ⟨4, 2⟩ ⟨0, [1, 1, 1, 1]⟩
    let run : List CutEvent :=
      [.snapshot, .truncateStaged 6, .truncateRows 0, .commit, .finish, .punchRows ⟨1, 2, true⟩]
    (exec (CutState.step ⟨4, 2⟩) { file := f } run).isSome ∧
      Throughout (CutState.step ⟨4, 2⟩) (CutState.Stands ⟨4, 2⟩) { file := f } run :=
  ⟨by decide, cuts_stand ((represents_emptyFile ⟨4, 2⟩ (by decide)).run rfl
    (.writeFile ⟨0, [1, 1, 1, 1]⟩ (by decide))).wellFormed [] (by decide)⟩

/-- Four bytes are staged, a sync takes its snapshot, and a truncate to one byte returns
before the commit: the file has four bytes again, and what was cut off. -/
theorem cuts_undone :
    let f := (Limits.mk 4 2).emptyFile.writeFile ⟨4, 2⟩ ⟨0, [1, 1, 1, 1]⟩
    let run : List CutEvent := [.snapshot, .truncateStaged 1, .truncateRows 0, .commit, .finish]
    (exec (CutState.step ⟨4, 2⟩) { file := f } run).map
        (fun s => (s.returned, s.file.row.size, s.file.readFile ⟨4, 2⟩ 0 4)) = some (some 1, 4, [1, 1, 1, 1]) ∧
      ¬ Throughout (CutState.step ⟨4, 2⟩) (CutState.Stands ⟨4, 2⟩) { file := f } run := by
  refine ⟨by decide, fun h => ?_⟩
  have hlast := h.last (some_get (by decide)).symm rfl rfl
  exact absurd (hlast.1 1 (by decide)) (by decide)

/-! A call of `TruncateFile` that returns an error. The staged chunks are dropped and cut
before anything is checked, and nothing puts them back: neither where a chunk cannot be
rewritten, nor where the second part refuses the call (a negative size, a directory, no
inode, backpressure) or its transaction fails. -/

/-- Where the call fails. -/
inductive TruncateFault where
  /-- a staged chunk cannot be rewritten; these were visited before it -/
  | rewrite (visited : List Nat) (nodup : visited.Nodup)
  /-- before the transaction is committed -/
  | refused
  /-- after that, in the wait for the stream -/
  | wait

namespace File

/-- The file and the time in its row after the call. -/
def failTruncate (limits : Limits) (f : File) (mtime now : Nat) (size : Int) : TruncateFault → File × Nat
  | .rewrite visited _ => (visited.foldl (truncateStagedChunk limits.volumeChunkSize size) f, mtime)
  | .refused => (f.truncateStaged limits size, mtime)
  | .wait => (f.truncateFile limits size, now)

/-- The call left everything as it was. -/
def Unchanged (f : File) (mtime : Nat) (after : File × Nat) : Prop :=
  (∀ i, after.1.stagedChunks.lookup i = f.stagedChunks.lookup i) ∧ after.1.stagedSize = f.stagedSize ∧
    after.1.row = f.row ∧ after.1.chunkRows = f.chunkRows ∧ after.2 = mtime

/-- What is staged of the chunk lies below the size. -/
def Below (cs : Nat) (size : Int) (f : File) (i : Nat) : Prop :=
  ∀ r ∈ f.stagedChunks.lookup i, i * cs + cs ≤ size.toNat ∨ i * cs + r.data.length ≤ size.toNat

/-- Where it does no harm: what was visited lies below the size, and the size is the staged one. -/
def Harmless (limits : Limits) (f : File) (size : Int) : TruncateFault → Prop
  | .rewrite visited _ => ∀ i ∈ visited, f.Below limits.volumeChunkSize size i
  | .refused => (∀ i, f.Below limits.volumeChunkSize size i) ∧ ∀ s ∈ f.stagedSize, s = size.toNat
  | .wait => False

variable {limits : Limits} {cs cs' : Nat} {f : File}

theorem cutChunk_eq_some {packID i n : Nat} {r : StagedChunkReference} (hcs : 0 < cs) (hne : r.data ≠ []) :
    cutChunk cs n packID i r = some r ↔ i * cs + cs ≤ n ∨ i * cs + r.data.length ≤ n := by
  have hpos := length_pos_iff.mpr hne
  unfold cutChunk
  split_ifs with hgone hcut
  · simp
    omega
  · refine iff_of_false (fun heq => ?_) (by omega)
    -- the data has become shorter
    have hlen := congrArg (fun r : StagedChunkReference => r.data.length) (some.inj heq)
    simp only [length_take] at hlen
    omega
  · exact iff_of_true rfl (by omega)

theorem below_iff (size : Int) (i : Nat) (hcs : 0 < cs) (h : StagedOk cs' f) :
    (f.stagedChunks.lookup i).bind (cutChunk cs size.toNat f.packID i) = f.stagedChunks.lookup i ↔ f.Below cs size i := by
  unfold Below
  cases hl : f.stagedChunks.lookup i with
  | none => simp
  | some r => simpa using cutChunk_eq_some hcs (h.nonempty i r hl)

theorem unchanged_iff_lookup (h : StagedOk cs f) {f' : File}
    (hframe : f' = { f with stagedChunks := f'.stagedChunks, stagedSize := f'.stagedSize })
    (hsized : f'.Sized) {resized : Nat → Nat}
    (hsize : ∀ s ∈ f.stagedSize, ∀ s' ∈ f'.stagedSize, s' = resized s) (mtime : Nat) :
    f.Unchanged mtime (f', mtime) ↔
      (∀ i, f'.stagedChunks.lookup i = f.stagedChunks.lookup i) ∧ ∀ s ∈ f.stagedSize, s = resized s := by
  refine and_congr_right fun hlookup => ?_
  have hsome : f'.stagedSize.isSome ↔ f.stagedSize.isSome := by simp only [hsized, h.sized, hlookup]
  have hrows : f'.row = f.row ∧ f'.chunkRows = f.chunkRows := by rw [hframe]; exact ⟨rfl, rfl⟩
  simp only [hrows, and_self, and_true]
  rcases h : f.stagedSize with _ | s <;> rcases h' : f'.stagedSize with _ | s' <;> simp [h, h'] at hsome ⊢
  rw [hsize s h s' h', eq_comm]

/-- **Failed truncates.** The call left everything as it was if and only if it could do no harm. -/
theorem failTruncate_unchanged_iff (h : StagedOk cs f) {mtime now : Nat} (htime : now ≠ mtime) (size : Int)
    (fault : TruncateFault) :
    f.Unchanged mtime (f.failTruncate limits mtime now size fault) ↔ f.Harmless limits size fault := by
  have hbelow := fun i => below_iff size i limits.volumeChunkSize_pos h
  cases fault with
  | rewrite visited hnodup =>
    have hre : Restaged f (visited.foldl (truncateStagedChunk limits.volumeChunkSize size) f) :=
      Restaged.foldl (fun _ hg i => restaged_truncateStagedChunk hg i) h.sized visited
    rw [failTruncate, unchanged_iff_lookup h hre.frame hre.sized
      fun s hs s' hs' => some.inj ((hre.size s' hs').symm.trans hs), and_iff_left fun _ _ => rfl,
      truncateStagedChunk_toNat]
    refine forall_congr' fun i => ?_
    rw [lookup_truncateStagedChunks _ _ f hnodup]
    by_cases hi : i ∈ visited
    · rw [if_pos hi, hbelow, forall_prop_of_true hi]
    · rw [if_neg hi, forall_prop_of_false hi, eq_self_iff_true]
  | refused =>
    obtain ⟨hframe, hsized, hsize⟩ := truncateStaged_sized limits h.sized size
    rw [failTruncate, unchanged_iff_lookup h hframe hsized fun _ _ => hsize, truncateStaged_toNat]
    simp only [lookup_truncateStaged, hbelow, Harmless]
  | wait => exact iff_of_false (fun hsame => htime hsame.2.2.2.2) id

end File

/-- Two chunks are staged. The second one cannot be cut, and the first one was visited before. -/
theorem failTruncate_unchanged_whole :
    let f := (Limits.mk 4 2).emptyFile.writeFile ⟨4, 2⟩ ⟨0, [1, 1, 1, 1, 2, 2]⟩
    (1 : Nat) ≠ 0 ∧ f.Unchanged 0 (f.failTruncate ⟨4, 2⟩ 0 1 5 (.rewrite [0] (by decide))) :=
  ⟨by decide, (failTruncate_unchanged_iff ((represents_emptyFile ⟨4, 2⟩ (by decide)).run rfl
    (.writeFile ⟨0, [1, 1, 1, 1, 2, 2]⟩ (by decide))).wellFormed.staged (by decide) 5 _).mpr
      fun i hi r _ => by obtain rfl := mem_singleton.mp hi; decide +revert⟩

/-- A truncate to a negative size is refused, after what is staged was dropped. -/
theorem failTruncate_drops_staged :
    let f := (Limits.mk 4 2).emptyFile.writeFile ⟨4, 2⟩ ⟨0, [1, 1, 1, 1]⟩
    ¬ f.Unchanged 0 (f.failTruncate ⟨4, 2⟩ 0 1 (-1) .refused) :=
  fun h => absurd (h.1 0) (by decide)

end InClusterStorage.Controller
