import Mathlib.Data.List.Chain
import Mathlib.Data.List.Sort
import InClusterStorage.Node.CacheSteps

/- How a node sends the dirty chunks of a file (`pushDirtyChunksToStaging`, `fuse/fs.go`).

   The copy that `GetDirtyChunks` makes is cut to the size of the file, and neighbouring
   chunks are sent in one `WriteFile`, up to a number of chunks and of bytes. Sending the
   runs one after the other is the same as sending every chunk by itself
   (`foldl_sendRun`): a run goes on only over chunks that are full. -/
namespace InClusterStorage.Node

open Bytes List

def maxSyncRunChunks : Nat := 32

def maxSyncRunBytes : Nat := 2 * 1024 * 1024

/-- The loop that puts indices together to runs. -/
structure Coalesced where
  runs : List (List Nat) := []
  currentRun : List Nat := []
  currentRunBytes : Nat := 0

namespace DirtyChunks

variable (d : DirtyChunks)

/-- The chunks to send, in order. -/
def indices : List Nat := (d.chunks.keys.filter fun i => i * d.chunkSize < d.size).insertionSort (· ≤ ·)

/-- Chunks behind the end of the file are marked clean and not sent. -/
def beyond : List Nat := d.chunks.keys.filter fun i => d.size ≤ i * d.chunkSize

/-- The bytes of a chunk, up to the end of the file. -/
def data (i : Nat) : List UInt8 := ((d.chunks.lookup i).getD []).take (d.size - i * d.chunkSize)

def coalesceStep (s : Coalesced) (idx : Nat) : Coalesced :=
  let chunkData := d.data idx
  let s := match s.currentRun.getLast? with
    | none => s
    | some prevIdx =>
      if idx ≠ prevIdx + 1 ∨ (d.data prevIdx).length ≠ d.chunkSize ∨ maxSyncRunChunks ≤ s.currentRun.length ∨
          maxSyncRunBytes < s.currentRunBytes + chunkData.length then
        { runs := s.runs ++ [s.currentRun] }
      else s
  { s with currentRun := s.currentRun ++ [idx], currentRunBytes := s.currentRunBytes + chunkData.length }

def runs : List (List Nat) :=
  let s := d.indices.foldl d.coalesceStep {}
  if s.currentRun = [] then s.runs else s.runs ++ [s.currentRun]

def runData (run : List Nat) : List UInt8 := run.flatMap d.data

/-- `WriteFile` with the bytes of a run, on a file that is written at once. -/
def sendRun (file : List UInt8) (run : List Nat) : List UInt8 :=
  splice file (run.headD 0 * d.chunkSize) (d.runData run)

def sendChunk (file : List UInt8) (i : Nat) : List UInt8 := splice file (i * d.chunkSize) (d.data i)

/-! Runs. -/

/-- Every chunk of the run but the last is full, and the next one follows it. -/
def Contiguous (run : List Nat) : Prop :=
  run.IsChain fun i j => j = i + 1 ∧ (d.data i).length = d.chunkSize

variable {d}

/-- What the loop keeps of a run. A run of more than one chunk is short. -/
structure RunOk (d : DirtyChunks) (run : List Nat) : Prop where
  contiguous : d.Contiguous run
  count : run.length ≤ maxSyncRunChunks
  bytes : (d.runData run).length ≤ maxSyncRunBytes ∨ run.length = 1

/-- The state of the loop; only the current run may be empty. -/
structure CoalesceInv (d : DirtyChunks) (s : Coalesced) : Prop where
  runs : ∀ run ∈ s.runs, run ≠ [] ∧ d.RunOk run
  current : d.RunOk s.currentRun
  bytes : s.currentRunBytes = (d.runData s.currentRun).length

theorem runOk_singleton (idx : Nat) : d.RunOk [idx] := ⟨.singleton _, Nat.le_add_left 1 31, .inr rfl⟩

theorem coalesceStep_spec {s : Coalesced} (h : d.CoalesceInv s) (idx : Nat) :
    d.CoalesceInv (d.coalesceStep s idx) ∧ (d.coalesceStep s idx).runs.flatten ++ (d.coalesceStep s idx).currentRun =
      s.runs.flatten ++ s.currentRun ++ [idx] := by
  have hone : (d.data idx).length = (d.runData [idx]).length := by simp [runData]
  unfold coalesceStep
  cases hlast : s.currentRun.getLast? with
  | none =>
    have hnil : s.currentRun = [] := getLast?_eq_none_iff.mp hlast
    have hbytes := h.bytes
    simp only [hnil, nil_append] at hbytes ⊢
    exact ⟨⟨h.runs, runOk_singleton idx, by rw [hbytes, ← hone, runData, flatMap_nil, length_nil, zero_add]⟩, by simp⟩
  | some prevIdx =>
    simp only
    split_ifs with hnew
    · refine ⟨⟨fun run hrun => ?_, runOk_singleton idx, by rw [zero_add, hone]; rfl⟩, by simp⟩
      cases mem_append.mp hrun with
      | inl hold => exact h.runs run hold
      | inr hcur =>
        cases mem_singleton.mp hcur
        exact ⟨fun hnil => by simp [hnil] at hlast, h.current⟩
    · push Not at hnew
      have hbytes : s.currentRunBytes + (d.data idx).length = (d.runData (s.currentRun ++ [idx])).length := by
        simp [runData, h.bytes]
      refine ⟨⟨h.runs, ⟨isChain_append.mpr ⟨h.current.contiguous, .singleton _, fun i hi j hj => ?_⟩, ?_, .inl ?_⟩, hbytes⟩,
        (append_assoc ..).symm⟩
      · rw [hlast, Option.mem_some_iff] at hi
        rw [head?_cons, Option.mem_some_iff] at hj
        exact ⟨by omega, hi ▸ hnew.2.1⟩
      · rw [length_append]
        exact hnew.2.2.1
      · exact hbytes ▸ hnew.2.2.2

theorem coalesce_spec (indices : List Nat) {s : Coalesced} (h : d.CoalesceInv s) :
    d.CoalesceInv (indices.foldl d.coalesceStep s) ∧ (indices.foldl d.coalesceStep s).runs.flatten ++
      (indices.foldl d.coalesceStep s).currentRun = s.runs.flatten ++ s.currentRun ++ indices := by
  induction indices generalizing s with
  | nil => exact ⟨h, (append_nil _).symm⟩
  | cons idx indices ih =>
    obtain ⟨hstep, hflat⟩ := coalesceStep_spec h idx
    obtain ⟨hnext, hrest⟩ := ih hstep
    refine ⟨hnext, ?_⟩
    rw [foldl_cons, hrest, hflat, append_assoc, singleton_append]

theorem runs_spec : d.runs.flatten = d.indices ∧ ∀ run ∈ d.runs, run ≠ [] ∧ d.RunOk run := by
  obtain ⟨h, hflat⟩ := coalesce_spec d.indices (d := d) (s := {}) ⟨nofun, ⟨.nil, Nat.zero_le _, .inl (Nat.zero_le _)⟩, rfl⟩
  unfold runs
  simp only
  split
  case isTrue hnil => exact ⟨by simpa [hnil] using hflat, h.runs⟩
  case isFalse hne =>
    refine ⟨by simpa using hflat, fun run hrun => ?_⟩
    cases mem_append.mp hrun with
    | inl hold => exact h.runs run hold
    | inr hcur => exact mem_singleton.mp hcur ▸ ⟨hne, h.current⟩

theorem flatten_runs : d.runs.flatten = d.indices := runs_spec.1

theorem contiguous_of_mem_runs {run : List Nat} (hrun : run ∈ d.runs) : d.Contiguous run :=
  (runs_spec.2 run hrun).2.contiguous

theorem sendRun_eq {run : List Nat} (h : d.Contiguous run) (file : List UInt8) :
    d.sendRun file run = run.foldl d.sendChunk file := by
  induction run generalizing file with
  | nil =>
    apply Bytes.ext
    · simp [sendRun, runData, length_splice]
    · intro p _
      simp [sendRun, runData, byteAt_splice]
  | cons i run ih =>
    cases run with
    | nil => simp [sendRun, sendChunk, runData]
    | cons j run =>
      obtain ⟨⟨hj, hfull⟩, htail⟩ := isChain_cons_cons.mp h
      have hoffset : j * d.chunkSize = i * d.chunkSize + (d.data i).length := by
        rw [hj, hfull, Nat.succ_mul]
      rw [foldl_cons, ← ih htail]
      show splice file (i * d.chunkSize) (d.data i ++ d.runData (j :: run)) =
        splice (splice file (i * d.chunkSize) (d.data i)) (j * d.chunkSize) (d.runData (j :: run))
      rw [hoffset, splice_splice]

theorem foldl_sendRun (file : List UInt8) : d.runs.foldl d.sendRun file = d.indices.foldl d.sendChunk file := by
  rw [← flatten_runs]
  have h : ∀ run ∈ d.runs, d.Contiguous run := fun _ => contiguous_of_mem_runs
  generalize d.runs = runs at h ⊢
  induction runs generalizing file with
  | nil => rfl
  | cons run runs ih =>
    rw [foldl_cons, sendRun_eq (h run mem_cons_self), ih _ fun r hr => h r (mem_cons_of_mem _ hr),
      flatten_cons, foldl_append]

theorem mem_indices {i : Nat} : i ∈ d.indices ↔ (d.chunks.lookup i).isSome ∧ i * d.chunkSize < d.size := by
  unfold indices
  rw [mem_insertionSort, mem_filter, Table.mem_keys, decide_eq_true_eq]

theorem indices_nodup : d.indices.Nodup :=
  (perm_insertionSort _ _).nodup_iff.mpr (d.chunks.keys_nodup.filter _)

/-! The requests. -/

/-- Offset and data of each `WriteFile`. -/
def requests (d : DirtyChunks) : List (Nat × List UInt8) :=
  d.runs.map fun run => (run.headD 0 * d.chunkSize, d.runData run)

/-- The bytes that the requests write, with their positions. -/
def written (d : DirtyChunks) : List (UInt8 × Nat) := d.requests.flatMap fun r => r.2.zipIdx r.1

theorem zipIdx_runData {run : List Nat} (h : d.Contiguous run) :
    (d.runData run).zipIdx (run.headD 0 * d.chunkSize) = run.flatMap fun i => (d.data i).zipIdx (i * d.chunkSize) := by
  induction run with
  | nil => rfl
  | cons i run ih =>
    show (d.data i ++ d.runData run).zipIdx (i * d.chunkSize) = _
    rw [zipIdx_append, flatMap_cons]
    congr 1
    cases run with
    | nil => rfl
    | cons j run =>
      obtain ⟨⟨hj, hfull⟩, htail⟩ := isChain_cons_cons.mp h
      rw [← ih htail, hfull, ← Nat.succ_mul, headD_cons, hj]

theorem written_eq : d.written = d.indices.flatMap fun i => (d.data i).zipIdx (i * d.chunkSize) := by
  rw [← flatten_runs, flatten_eq_flatMap, flatMap_assoc, written, requests, flatMap_map]
  exact flatMap_congr fun run hrun => zipIdx_runData (contiguous_of_mem_runs hrun)

/-- **The runs cover the dirty bytes.** For chunks of at most the chunk size, the runs are the
indices below the size of the file in order, none is empty or too long, and the requests write
the bytes of these chunks up to that size, in order of their positions. -/
theorem runs_cover (d : DirtyChunks) (hlen : ∀ i c, d.chunks.lookup i = some c → c.length ≤ d.chunkSize) :
    d.runs.flatten.Pairwise (· < ·) ∧
    (∀ i, i ∈ d.runs.flatten ↔ (d.chunks.lookup i).isSome ∧ i * d.chunkSize < d.size) ∧
    (∀ run ∈ d.runs, run ≠ [] ∧ run.length ≤ 32 ∧ (d.runData run).length ≤ max (2 * 1024 * 1024) d.chunkSize) ∧
    d.written.Pairwise (fun a b => a.2 < b.2) ∧
    ∀ b p, (b, p) ∈ d.written ↔
      ∃ i chunk, d.chunks.lookup i = some chunk ∧ i * d.chunkSize ≤ p ∧ p < d.size ∧
        chunk[p - i * d.chunkSize]? = some b := by
  have hshort (i) : (d.data i).length ≤ d.chunkSize := by
    rw [data, length_take]
    cases hc : d.chunks.lookup i with
    | none => simp
    | some c => exact (min_le_right ..).trans (hlen i c hc)
  have hsorted : d.indices.Pairwise (· < ·) :=
    ((pairwise_insertionSort _ _).and indices_nodup).imp fun h => lt_of_le_of_ne h.1 h.2
  rw [flatten_runs, written_eq]
  refine ⟨hsorted, fun i => mem_indices, fun run hrun => ?_, pairwise_flatMap.mpr ⟨fun i _ => ?_, ?_⟩, fun b p => ?_⟩
  · obtain ⟨hne, hok⟩ := runs_spec.2 run hrun
    refine ⟨hne, hok.count, ?_⟩
    obtain hle | hone := hok.bytes
    · exact hle.trans (le_max_left ..)
    obtain ⟨i, rfl⟩ := length_eq_one_iff.mp hone
    have := hshort i
    simp only [runData, flatMap_singleton]
    omega
  · rw [← pairwise_map (R := (· < ·)) (f := Prod.snd), zipIdx_map_snd]
    exact pairwise_lt_range'
  · refine hsorted.imp fun {i j} hij x hx y hy => ?_
    obtain ⟨hxi, hx⟩ := mem_zipIdx_iff_le_and_getElem?_sub.mp hx
    have hx := (List.getElem?_eq_some_iff.mp hx).1
    have hy := (mem_zipIdx_iff_le_and_getElem?_sub.mp hy).1
    have hmul := Nat.mul_le_mul_right d.chunkSize hij
    have := hshort i
    rw [Nat.succ_mul] at hmul
    omega
  · simp only [mem_flatMap, mem_indices, mem_zipIdx_iff_le_and_getElem?_sub, data, getElem?_take]
    constructor
    · rintro ⟨i, ⟨hsome, -⟩, hle, hb⟩
      obtain ⟨c, hc⟩ := Option.isSome_iff_exists.mp hsome
      rw [hc] at hb
      split_ifs at hb with hlt
      exact ⟨i, c, hc, hle, by omega, hb⟩
    · rintro ⟨i, c, hc, hle, hlt, hb⟩
      exact ⟨i, ⟨by rw [hc]; rfl, by omega⟩, hle, by rw [hc, if_pos (by omega)]; exact hb⟩

/-- Two runs, of which the second ends with the file. -/
theorem runs_cover_cut :
    let d : DirtyChunks := ⟨.insert 0 [1, 2] (.insert 2 [5, 6] (.insert 3 [7, 8] ∅)), ∅, 2, 7⟩
    d.runs = [[0], [2, 3]] ∧ d.written.length = 5 ∧ d.runs.flatten.Pairwise (· < ·) :=
  ⟨by decide +kernel, by decide +kernel, (runs_cover _ (Table.forall_insert (by decide)
    (Table.forall_insert (by decide) (Table.forall_insert (by decide) (by simp))))).1⟩

theorem byteAt_foldl_sendChunk {cs : Nat} (hcs : 0 < cs) (hchunkSize : d.chunkSize = cs)
    (hlen : ∀ i, (d.data i).length ≤ cs) {indices : List Nat} (hnodup : indices.Nodup) (file : List UInt8) (p : Nat) :
    byteAt (indices.foldl d.sendChunk file) p =
      if p / cs ∈ indices ∧ p % cs < (d.data (p / cs)).length
        then byteAt (d.data (p / cs)) (p % cs) else byteAt file p := by
  have hsplit := Controller.div_mul_add_mod hcs p
  induction indices generalizing file with
  | nil => simp
  | cons i indices ih =>
    obtain ⟨hi, hnodup'⟩ := nodup_cons.mp hnodup
    rw [foldl_cons, ih hnodup']
    have hiff := Controller.div_eq hcs (i := i) (p := p)
    have hle := hlen i
    by_cases hmem : p / cs ∈ indices ∧ p % cs < (d.data (p / cs)).length
    · rw [if_pos hmem, if_pos ⟨mem_cons_of_mem _ hmem.1, hmem.2⟩]
    rw [if_neg hmem, sendChunk, byteAt_splice, hchunkSize]
    by_cases hp : p / cs = i
    · rw [hp] at hsplit
      by_cases hq : p % cs < (d.data i).length
      · rw [if_pos (by omega), if_pos ⟨hp ▸ mem_cons_self, hp ▸ hq⟩, hp]
        congr 1
        omega
      · rw [if_neg (by omega), if_neg (by rw [hp]; exact fun h => hq h.2)]
    · rw [if_neg (by omega), if_neg]
      intro h
      exact hmem ⟨(mem_cons.mp h.1).resolve_left hp, h.2⟩

theorem length_foldl_sendChunk (indices : List Nat) (file : List UInt8) (n : Nat) :
    (indices.foldl d.sendChunk file).length ≤ n ↔
      file.length ≤ n ∧ ∀ i ∈ indices, i * d.chunkSize + (d.data i).length ≤ n := by
  induction indices generalizing file with
  | nil => simp
  | cons i indices ih =>
    rw [foldl_cons, ih, sendChunk, length_splice, forall_mem_cons, Nat.max_le, and_assoc]

end DirtyChunks

end InClusterStorage.Node
