import InClusterStorage.Controller.PackSafety

/- Whether a digest that a sync commits is that of a blob in the backend.

   A sync looks at the packs once, when it takes its snapshot: those that are not uploaded
   then are uploaded, or their uploads are waited for, before it commits. A pack that is gone
   by then was uploaded. Packs are settled when the sync starts, so that what is uploaded has
   all chunks of the snapshot (`SyncStored`).

   `chunks_stored_before_commit`: in every run of a volume with a blob store, each digest is
   that of a blob in a pack that was stored before the commit. -/
namespace InClusterStorage.Controller.Packs

open List Runs

namespace Volume

/-- A pack in the backend has a blob with the digest. -/
def BlobStored (v : Volume) (sha : Sha) : Prop := ∃ pack ∈ v.stored, ∃ entry ∈ pack.entries, entry.sha256 = sha

/-- The event does not commit a digest that is not stored. -/
def Backed (v : Volume) : Event → Prop
  | .sync (.commit fault) => fault ≠ some .append → ∀ sync ∈ v.sync, ∀ inodes rows, sync.phase = .appending inodes rows →
      ∀ row ∈ rows, ∀ chunk ∈ row.chunks, ∀ sha ∈ chunk.sha256, v.BlobStored sha
  | _ => True

/-- The chunk is in a pack in the backend, or in a settled pack that is still to be
uploaded. -/
def Secured (v : Volume) (ids : List Nat) (reference : StagedChunkReference) : Prop :=
  (∃ pack ∈ v.stored, reference.entry ∈ pack.entries) ∨
    reference.packID ∈ ids ∧ v.Settled reference.packID ∧ v.Holds reference

/-- What a sync knows of the chunks of its snapshot. -/
def SyncStored (v : Volume) (sync : Sync) : Prop :=
  match sync.phase with
  | .uploading ids => ∀ e ∈ sync.snapshotChunks, v.Secured ids e.2
  | .storing p rest => ∀ e ∈ sync.snapshotChunks, v.Secured (p :: rest) e.2
  | .stored _ ok rest => ok = true → ∀ e ∈ sync.snapshotChunks, v.Secured rest e.2
  | .appending _ rows => (∀ e ∈ sync.snapshotChunks, v.Secured [] e.2) ∧
      ∀ row ∈ rows, ∀ chunk ∈ row.chunks, ∀ sha ∈ chunk.sha256, v.BlobStored sha
  | .finishing _ => True

variable {v v' : Volume} {E : Nat → Prop} {ids : List Nat} {reference : StagedChunkReference} {sync : Sync}

theorem BlobStored.mono (h : Later E v v') {sha : Sha} (hsha : v.BlobStored sha) : v'.BlobStored sha := by
  obtain ⟨pack, hpack, hentry⟩ := hsha
  exact ⟨pack, h.stored pack hpack, hentry⟩

theorem Secured.mono (hblob : v.config.blobStore = true) (h : Later E v v') (hsecured : v.Secured ids reference) :
    v'.Secured ids reference := by
  obtain ⟨pack, hpack, hentry⟩ | ⟨hmem, hsettled, info, hinfo, hentry⟩ := hsecured
  · exact .inl ⟨pack, h.stored pack hpack, hentry⟩
  obtain ⟨info', hinfo', hsub⟩ | ⟨-, hstored⟩ := h.kept reference.packID info hinfo
  · exact .inr ⟨hmem, h.settled _ hsettled, info', hinfo', hsub _ hentry⟩
  · -- an evicted pack is in the backend
    obtain ⟨pack, hpack, hsub⟩ := hstored hblob
    exact .inl ⟨pack, hpack, hsub _ hentry⟩

/-- Once its first pack is stored, a chunk of it needs the others no more. -/
theorem Secured.tail {p : Nat} (hp : v.InBackend p) (hsecured : v.Secured (p :: ids) reference) :
    v.Secured ids reference := by
  obtain hstored | ⟨hmem, hsettled, info, hinfo, hentry⟩ := hsecured
  · exact .inl hstored
  · obtain heq | hmem := mem_cons.mp hmem
    · exact .inl ⟨info.pack, hp info (heq ▸ hinfo), hentry⟩
    · exact .inr ⟨hmem, hsettled, info, hinfo, hentry⟩

theorem Secured.blobStored (h : v.Secured [] reference) : v.BlobStored reference.entry.sha256 := by
  obtain ⟨pack, hpack, hentry⟩ | ⟨hmem, -⟩ := h
  · exact ⟨pack, hpack, _, hentry, rfl⟩
  · exact absurd hmem not_mem_nil

theorem SyncStored.mono (hblob : v.config.blobStore = true) (h : Later E v v') (hsync : v.SyncStored sync) :
    v'.SyncStored sync := by
  unfold SyncStored at hsync ⊢
  split
  case h_1 hphase =>
    rw [hphase] at hsync
    exact fun e he => (hsync e he).mono hblob h
  case h_2 hphase =>
    rw [hphase] at hsync
    exact fun e he => (hsync e he).mono hblob h
  case h_3 hphase =>
    rw [hphase] at hsync
    exact fun hok e he => (hsync hok e he).mono hblob h
  case h_4 hphase =>
    rw [hphase] at hsync
    exact ⟨fun e he => (hsync.1 e he).mono hblob h,
      fun row hrow chunk hchunk sha hsha => (hsync.2 row hrow chunk hchunk sha hsha).mono h⟩
  case h_5 => trivial

/-- A sync starts: its chunks are in packs that are uploaded, or that it will upload. -/
theorem Sound.syncStored_start (h : v.Sound) (hblob : v.config.blobStore = true) (hsync : v.SyncSound sync)
    (hstart : Starts v sync) : v.SyncStored sync := by
  unfold SyncStored
  cases hstart with
  | finishing hphase => rw [hphase]; trivial
  | uploading hphase hchunks =>
    rw [hphase]
    intro e he
    obtain ⟨info, hinfo, hentry⟩ := h.staged e.1 e.2 (hchunks e he)
    by_cases hstate : info.state = .uploaded
    · exact .inl ⟨info.pack, h.stored hblob _ info hinfo hstate, hentry⟩
    · have hmem : e.2.packID ∈ v.packIDsToUpload := mem_packIDsToUpload.mpr ⟨info, hinfo, hstate⟩
      exact .inr ⟨hmem, hsync.settled _ (by rw [hphase]; exact hmem), info, hinfo, hentry⟩

theorem SyncStored.transition (h : v.Sound) (hblob : v.config.blobStore = true)
    (hsync : v.SyncStored sync) (hlater : Later E v v') {phase : SyncPhase} (ht : Transition v sync v' phase) :
    v'.SyncStored { sync with phase } := by
  have hmono : v'.SyncStored sync := hsync.mono hblob hlater
  unfold SyncStored at hsync hmono ⊢
  cases ht with
  | @skip p rest hphase hdone =>
    rw [hphase] at hsync
    have htail : ∀ e ∈ sync.snapshotChunks, v.Secured rest e.2 := fun e he =>
      (hsync e he).tail fun info hinfo => h.stored hblob p info hinfo (hdone hblob info hinfo)
    exact fun e he => (htail e he).mono hblob hlater
  | store hphase =>
    rwa [hphase] at hmono
  | stored hphase hstored =>
    rw [hphase] at hmono
    exact fun hok e he => (hmono e he).tail (hstored hok)
  | next hphase =>
    rw [hphase] at hmono
    exact hmono rfl
  | load hphase =>
    rw [hphase] at hmono
    exact ⟨hmono, nofun⟩
  | row hphase hrow =>
    rw [hphase] at hmono
    refine ⟨hmono.1, fun row' hrow' chunk hchunk sha hsha => ?_⟩
    obtain hold | hnew := mem_append.mp hrow'
    · exact hmono.2 row' hold chunk hchunk sha hsha
    · cases mem_singleton.mp hnew
      obtain ⟨e, he, rfl⟩ := syncRows_sha hrow chunk hchunk sha hsha
      exact (hmono.1 e he).blobStored
  | finish => trivial

/-! The invariant. -/

structure StoredInv (v : Volume) : Prop where
  running : v.Running
  blobStore : v.config.blobStore = true
  syncStored : ∀ sync ∈ v.sync, v.SyncStored sync

theorem along_trivial {α : Type} {ok : α → Volume → Prop} {f : α → Volume → Volume × Option StageError}
    (hok : ∀ a v, ok a v) : ∀ (as : List α) (v : Volume), Along ok f as v
  | [], _ => trivial
  | a :: as, v => ⟨hok a v, fun _ => along_trivial hok as _⟩

theorem evictsOnly_true (v : Volume) (e : Event) : v.EvictsOnly (fun _ => True) e := by
  cases e with
  | write => exact along_trivial (fun _ _ _ _ _ => trivial) _ _
  | truncate => exact along_trivial (fun _ _ _ _ _ _ _ _ _ => trivial) _ _
  | _ => trivial

theorem StoredInv.step (h : v.StoredInv) {e : Event} (hstep : v.step e = some v') : v'.StoredInv := by
  obtain ⟨hrunning, hconfig, hprogress⟩ := h.running.step (evictsOnly_true v e) hstep
  have hblob : v'.config.blobStore = true := hconfig ▸ h.blobStore
  refine ⟨hrunning, hblob, fun sync hmem => ?_⟩
  cases hprogress with
  | beside hlater hsync => exact (h.syncStored sync (hsync ▸ hmem)).mono h.blobStore hlater
  | starts hsync hstart =>
    cases hsync.symm.trans hmem
    exact hrunning.sound.syncStored_start hblob (hrunning.syncSound _ hmem) hstart
  | moves hsome hlater hsync ht =>
    cases hsync.symm.trans hmem
    exact (h.syncStored _ hsome).transition h.running.sound h.blobStore hlater ht
  | ends hsync => cases hsync.symm.trans hmem

theorem StoredInv.backed (h : v.StoredInv) (e : Event) : v.Backed e := by
  unfold Backed
  split
  case h_2 => trivial
  case h_1 fault =>
    intro _ sync hsome inodes rows hphase
    have hstored := h.syncStored sync hsome
    unfold SyncStored at hstored
    rw [hphase] at hstored
    exact hstored.2

theorem StoredInv.new {config : Config} (hblob : config.blobStore = true) (inodes : AList fun _ : Nat => Nat) :
    StoredInv { config, inodes } where
  running := .new config inodes
  blobStore := hblob
  syncStored := by simp

end Volume

/-! Results. -/

/-- **A digest is committed only after a pack with its blob is stored.** In every run of a
volume with a blob store, with any failures. -/
theorem chunks_stored_before_commit (config : Config) (hblob : config.blobStore = true)
    (inodes : AList fun _ : Nat => Nat) (events : List Volume.Event) :
    Allowed Volume.step Volume.Backed { config, inodes } events := by
  apply allowed_of_inv (I := Volume.StoredInv)
  · exact fun _ e h => h.backed e
  · exact fun _ _ _ h hstep => h.step hstep
  · exact .new hblob inodes

/-- A chunk is written and synced; its digest is committed. -/
theorem chunks_stored_before_commit_run : let config : Config :=
      { codec := ⟨id, length, fun _ => 0⟩, blobStore := true, maxStagingBytes := 100000, maxInlineLen := 0, chunkSize := 4 }
    let v : Volume := { config, inodes := AList.singleton 8 0 }
    let events : List Volume.Event :=
      [.write 8 3 [{ index := 0, data := [1, 2, 3] }] 3, .startSync true none, .sync .nextPack, .sync (.storePack true),
        .sync .packDone, .sync .nextPack, .sync (.appendInode 8 true)]
    (exec Volume.step v events).bind (fun v => v.sync.map (·.phase)) =
        some (.appending [] [⟨8, 3, [{ ino := 8, index := 0, sha256 := some [1, 2, 3] }]⟩]) ∧
      Allowed Volume.step Volume.Backed v (events ++ [.sync (.commit none)]) :=
  ⟨by decide +kernel, chunks_stored_before_commit _ rfl _ _⟩

/-- **What is staged can be read.** In every run, evictions and failed uploads included, the pack
of every staged chunk is there and has it, and a pack counts the staged chunks that are in it. -/
theorem staged_readable (config : Config) (inodes : AList fun _ : Nat => Nat) (events : List Volume.Event) :
    Throughout Volume.step (fun v =>
      (∀ key reference, v.stagedChunks.lookup key = some reference → v.readStagedChunkBytes reference ≠ none) ∧
        ∀ p info, v.packs.lookup p = some info → info.liveReferences = v.references p) { config, inodes } events := by
  apply throughout_of_inv (I := Volume.Running)
  · exact fun v h => ⟨fun key reference hkey => (h.sound.staged key reference hkey).readStagedChunkBytes, h.sound.live⟩
  · exact fun v e _ h hstep => (h.step (v.evictsOnly_true e) hstep).1
  · exact .new config inodes

end InClusterStorage.Controller.Packs
