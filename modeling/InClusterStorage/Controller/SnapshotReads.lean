import InClusterStorage.Controller.StoredChunks

/- Whether a sync can read the chunks of its snapshot until it has committed them.

   A small file is committed with its bytes, which the sync reads from the pack after all
   packs are uploaded. The mutex is free by then: chunks of the snapshot may be written again,
   so that nothing staged refers to their pack, and the pack is evicted if space is short.

   1. `snapshot_readable`: in a run where no chunk is appended under pressure while a pack of
      the snapshot may be evicted, every chunk of the snapshot can be read until the sync is
      over, and no sync fails for the lack of a pack.
   2. `snapshot_evicted`: two writes while a sync runs make it fail. -/
namespace InClusterStorage.Controller.Packs

open Runs

namespace Volume

/-- The sync has its work before it. -/
def Reading (sync : Sync) : Prop := ∀ err, sync.phase ≠ .finishing err

/-- The sync can read its snapshot, and does not fail because a pack is not found. -/
def Intact (v : Volume) : Prop :=
  ∀ sync ∈ v.sync, (Reading sync → ∀ e ∈ sync.snapshotChunks, v.readStagedChunkBytes e.2 ≠ none) ∧
    sync.phase ≠ .finishing (some .stagedPackNotFound)

/-- No sync has a chunk of its snapshot in the pack. -/
def Unneeded (v : Volume) (p : Nat) : Prop :=
  ∀ sync ∈ v.sync, Reading sync → ∀ e ∈ sync.snapshotChunks, e.2.packID ≠ p

/-- Where space is short for a chunk that the event appends, no pack that may be evicted
has a chunk of the snapshot. -/
def Calm (v : Volume) : Event → Prop
  | .write ino _ chunks _ => Along (WriteCalm v.Unneeded) (writeChunk ino) chunks v
  | .truncate ino size order => Along (TruncateCalm v.Unneeded ino size) (truncateChunk ino size) order v
  | _ => True

variable {v v' : Volume} {E : Nat → Prop} {sync : Sync}

/-- The packs have the chunks of the snapshot. -/
def SyncHolds (v : Volume) (sync : Sync) : Prop :=
  (Reading sync → ∀ e ∈ sync.snapshotChunks, v.Holds e.2) ∧ sync.phase ≠ .finishing (some .stagedPackNotFound)

theorem Holds.mono {reference : StagedChunkReference} (h : Later E v v') (hE : ¬ E reference.packID)
    (hholds : v.Holds reference) : v'.Holds reference := by
  obtain ⟨info, hinfo, hentry⟩ := hholds
  obtain ⟨info', hinfo', hsub⟩ | ⟨hevicted, -⟩ := h.kept reference.packID info hinfo
  · exact ⟨info', hinfo', hsub _ hentry⟩
  · exact absurd hevicted hE

theorem Sound.syncHolds_start (h : v.Sound) (hstart : Starts v sync) : v.SyncHolds sync := by
  cases hstart with
  | uploading hphase hchunks =>
    exact ⟨fun _ e he => h.staged e.1 e.2 (hchunks e he), by rw [hphase]; exact nofun⟩
  | @finishing err hphase herr =>
    refine ⟨fun hreading => absurd hphase (hreading err), fun heq => ?_⟩
    exact herr (SyncPhase.finishing.inj (hphase.symm.trans heq))

theorem SyncHolds.transition (h : v.SyncHolds sync) (hlater : Later (fun _ => False) v v') {phase : SyncPhase}
    (ht : Transition v sync v' phase) : v'.SyncHolds { sync with phase } := by
  have hmono : Reading sync → ∀ e ∈ sync.snapshotChunks, v'.Holds e.2 :=
    fun hreading e he => (h.1 hreading e he).mono hlater fun h => h
  have hreading : ∀ {phase'}, sync.phase = phase' → (∀ err, phase' ≠ .finishing err) → Reading sync :=
    fun hphase hne err => hphase ▸ hne err
  cases ht with
  | skip hphase | store hphase => exact ⟨fun _ => hmono (hreading hphase nofun), nofun⟩
  | stored hphase | next hphase => exact ⟨fun _ => hmono (hreading hphase nofun), nofun⟩
  | load hphase | row hphase => exact ⟨fun _ => hmono (hreading hphase nofun), nofun⟩
  | finish herr =>
    refine ⟨fun hfinishing => absurd rfl (hfinishing _), fun heq => ?_⟩
    obtain ⟨inodes, rows, hphase, e, he, hnone⟩ := herr (SyncPhase.finishing.inj heq)
    exact (h.1 (hreading hphase nofun) e he).readStagedChunkBytes hnone

/-! The invariant. -/

structure ReadInv (v : Volume) : Prop where
  running : v.Running
  syncHolds : ∀ sync ∈ v.sync, v.SyncHolds sync

theorem ReadInv.intact (h : v.ReadInv) : v.Intact := by
  intro sync hsome
  obtain ⟨hholds, hphase⟩ := h.syncHolds sync hsome
  exact ⟨fun hreading e he => (hholds hreading e he).readStagedChunkBytes, hphase⟩

theorem ReadInv.step (h : v.ReadInv) {e : Event} (hcalm : v.Calm e) (hstep : v.step e = some v') : v'.ReadInv := by
  obtain ⟨hrunning, -, hprogress⟩ := h.running.step (E := v.Unneeded) hcalm hstep
  refine ⟨hrunning, fun sync hmem => ?_⟩
  cases hprogress with
  | beside hlater hsync =>
    rw [hsync] at hmem
    obtain ⟨hholds, hphase⟩ := h.syncHolds sync hmem
    refine ⟨fun hreading e he => (hholds hreading e he).mono hlater fun hunneeded => ?_, hphase⟩
    exact hunneeded sync hmem hreading e he rfl
  | starts hsync hstart =>
    cases hsync.symm.trans hmem
    exact hrunning.sound.syncHolds_start hstart
  | moves hsome hlater hsync ht =>
    cases hsync.symm.trans hmem
    exact (h.syncHolds _ hsome).transition hlater ht
  | ends hsync => cases hsync.symm.trans hmem

theorem ReadInv.new (config : Config) (inodes : AList fun _ : Nat => Nat) : ReadInv { config, inodes } where
  running := .new config inodes
  syncHolds := by simp

end Volume

/-! Results. -/

/-- **A sync can read its snapshot to the end if no chunk is appended under pressure while a
pack of the snapshot may be evicted.** -/
theorem snapshot_readable (config : Config) (inodes : AList fun _ : Nat => Nat) {events : List Volume.Event}
    (hcalm : Allowed Volume.step Volume.Calm { config, inodes } events) :
    Throughout Volume.step Volume.Intact { config, inodes } events := by
  refine Allowed.throughout (I := Volume.ReadInv) ?_ ?_ (.new config inodes) hcalm
  · exact fun _ h => h.intact
  · exact fun _ _ _ h hcalm hstep => h.step hcalm hstep

/-- A chunk is written again while a sync runs, with enough space. -/
theorem snapshot_readable_run : let config : Config :=
      { codec := ⟨id, List.length, fun _ => 0⟩, blobStore := true, maxStagingBytes := 200000,
        maxInlineLen := 4096, chunkSize := 0 }
    let v : Volume := { config, inodes := AList.singleton 8 0 }
    Throughout Volume.step Volume.Intact v
      [.write 8 1 [{ index := 0, data := [1] }] 1, .startSync true none, .sync .nextPack, .sync (.storePack true),
        .sync .packDone,
        .write 8 1 [{ index := 0, data := [2] }] 1, .write 8 1 [{ index := 0, data := [3] }] 1, .sync .nextPack,
        .sync (.appendInode 8 true), .sync (.commit none)] :=
  snapshot_readable _ _ (by
    refine ⟨⟨?_, fun _ => trivial⟩, trivial, trivial, trivial, trivial, ⟨?_, fun _ => trivial⟩, ⟨?_, fun _ => trivial⟩,
      trivial, trivial, trivial, trivial⟩
    all_goals exact fun hpressed => absurd hpressed (by decide +kernel))

/-- The file is written while its sync uploads it, and written once more when space is
short: the pack of the snapshot is evicted and the sync fails. -/
theorem snapshot_evicted : let config : Config :=
      { codec := ⟨id, List.length, fun _ => 0⟩, blobStore := true, maxStagingBytes := 60000,
        maxInlineLen := 4096, chunkSize := 0 }
    let v : Volume := { config, inodes := AList.singleton 8 0 }
    let events : List Volume.Event :=
      [.write 8 1 [{ index := 0, data := [1] }] 1, .startSync true none, .sync .nextPack, .sync (.storePack true),
        .sync .packDone,
        .write 8 1 [{ index := 0, data := [2] }] 1, .write 8 1 [{ index := 0, data := [3] }] 1, .sync .nextPack,
        .sync (.appendInode 8 true)]
    ¬ Throughout Volume.step Volume.Intact v events := by
  intro config v events h
  have hexec : (exec Volume.step v events).bind (fun v => v.sync.map (·.phase)) =
      some (.finishing (some .stagedPackNotFound)) := by decide +kernel
  obtain ⟨v', hv', hphase⟩ := Option.bind_eq_some_iff.mp hexec
  obtain ⟨sync, hsync, hphase⟩ := Option.map_eq_some_iff.mp hphase
  exact (h.last hv' sync hsync).2 hphase

end InClusterStorage.Controller.Packs
