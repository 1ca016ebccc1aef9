import InClusterStorage.Wal.Buffer.Restart

/- What a restarted buffer remembers of the sequence numbers in object storage.
   A client that attaches is told two watermarks; if they lie below a stored
   number, a writer that has lost its own directory gives that number away again.

   `restart_remembers_iff` says for every bucket and every data directory when
   this cannot happen. A stream that still has a record in a segment that is read,
   or in the local log, must have its highest stored number among the segments that
   are read and the local records behind them: sealed objects are not consulted
   for it. Any other stream is safe if its sealed objects reach as far as the
   segments that were skipped. -/
namespace InClusterStorage.Wal.Buffer

open List Option Server Files AList Runs

/-- The sequence numbers that a stream has in object storage. -/
def Server.storedSeqs (s : Server) (id : UUID) : List Nat :=
  seqs ((s.store.segments.entries.flatMap Sigma.snd).filter (·.streamID = id)) ++ (s.store.streams id).objects.sealedSeqs

variable {id : UUID} {q n : Nat} {s f : Server}

theorem mem_storedSeqs :
    q ∈ s.storedSeqs id ↔
      (∃ p records, s.store.segments.lookup p = some records ∧
        ∃ r ∈ records, r.streamID = id ∧ r.streamSeq = q) ∨ q ∈ (s.store.streams id).objects.sealedSeqs := by
  simp only [storedSeqs, mem_append, mem_seqs, mem_filter, mem_flatMap, decide_eq_true_eq]
  refine or_congr_left ⟨?_, ?_⟩
  · rintro ⟨r, ⟨⟨⟨p, records⟩, hp, hr⟩, hid⟩, hq⟩
    exact ⟨p, records, mem_lookup_iff.2 hp, r, hr, hid, hq⟩
  · rintro ⟨p, records, hp, r, hr, hid, hq⟩
    exact ⟨r, ⟨⟨⟨p, records⟩, mem_lookup_iff.1 hp, hr⟩, hid⟩, hq⟩

/-- The watermarks that `Append` reports in its first message. -/
def Server.helloAck (s : Server) (id : UUID) : StreamState := (s.getOrCreateStream true id).2

/-- Both watermarks reach what the stream had in object storage before the restart
and what it has there now. -/
def Remembers (before after : Server) (id : UUID) : Prop :=
  ∀ q ∈ before.storedSeqs id ++ after.storedSeqs id, q ≤ (after.helloAck id).witnessSeq ∧ q ≤ (after.helloAck id).s3Seq

/-- The sealed files of a stream, in the bucket or else on disk. -/
def Stream.sealedFiles (s : Stream) : Files := s.objects ∪ s.dir

/-- What a restart must find to remember a stream. -/
def Server.RestartRemembers (keep : Bool) (s : Server) (id : UUID) : Prop :=
  let found := s.crash keep
  let files := (found.store.streams id).sealedFiles
  (found.Logged id → ∀ q ∈ found.storedSeqs id ++ files.sealedSeqs, 0 < q →
    ∃ r ∈ found.counted, r.streamID = id ∧ q ≤ r.streamSeq) ∧
  (¬ found.Logged id → ∀ q ∈ found.storedSeqs id ++ files.sealedSeqs, 0 < q → ∃ e ∈ files.ends, q ≤ e)

instance (keep : Bool) (s : Server) (id : UUID) : Decidable (s.RestartRemembers keep id) :=
  inferInstanceAs (Decidable (((s.crash keep).Logged id → _) ∧ (¬ (s.crash keep).Logged id → _)))

/-! The sealed objects after a restart. -/

/-- After the restart every sealed file of the stream is an object. -/
theorem lookup_recovered (hf : f.Found) (id : UUID) (a b : Nat) :
    (f.recoveredStore.streams id).objects.lookup (.sealed a b) =
      (f.store.streams id).sealedFiles.lookup (.sealed a b) := by
  have hor : (f.store.streams id).sealedFiles.lookup (.sealed a b) =
      ((f.store.streams id).objects.lookup (.sealed a b)).or ((f.store.streams id).dir.lookup (.sealed a b)) := by
    by_cases hmem : StreamFileName.sealed a b ∈ (f.store.streams id).objects
    · obtain ⟨d, hd⟩ := isSome_iff_exists.1 (lookup_isSome.2 hmem)
      rw [Stream.sealedFiles, lookup_union_left hmem, hd, some_or]
    · rw [Stream.sealedFiles, lookup_union_right hmem, lookup_eq_none.2 hmem, none_or]
  rw [hor]
  simp only [recoveredStore]
  split
  · exact (recoverStream_objects (hf id).1 id _).1 a b
  · next hid =>
    have hdir : id ∉ f.streamDirs := fun h => hid (mem_dedup.2 (mem_append_left _ h))
    simp [(hf id).2 hdir]

theorem Files.mem_ends_congr {f g : Files} (h : ∀ a b, f.lookup (.sealed a b) = g.lookup (.sealed a b))
    {e : Nat} : e ∈ f.ends ↔ e ∈ g.ends := by
  simp only [mem_ends, ← lookup_isSome, h]

theorem Files.mem_sealedSeqs_congr {f g : Files}
    (h : ∀ a b, f.lookup (.sealed a b) = g.lookup (.sealed a b)) : q ∈ f.sealedSeqs ↔ q ∈ g.sealedSeqs := by
  simp only [mem_sealedSeqs, records, h]

/-- A stream found nowhere else starts where its last sealed object ends. -/
theorem lastEnd_ensureDiscovered {s : Stream}
    (h : LastEnd s.objects.keys s.w.uploadedTo ∨ s.w = {}) :
    LastEnd s.objects.keys (ensureDiscovered true s).w.uploadedTo := by
  unfold ensureDiscovered
  split
  · next hnew =>
    simp only [Bool.and_eq_true, beq_iff_eq] at hnew
    exact lastEnd_discover hnew.2
  · next hold =>
    refine h.resolve_right fun hw => hold ?_
    simp [hw]

/-! The watermarks after a restart. -/

/-- A logged stream is told no more than its counted records. -/
theorem le_helloAck_logged (h : f.newServer n = some s)
    (hid : f.Logged id) (hq : 0 < q) :
    (q ≤ (s.helloAck id).witnessSeq ∧ q ≤ (s.helloAck id).s3Seq) ↔
      ∃ r ∈ f.counted, r.streamID = id ∧ q ≤ r.streamSeq := by
  obtain ⟨st, hst, hmax, hle⟩ := newServer_logged h hid
  have hack : s.helloAck id = st := by simp only [helloAck, getOrCreateStream, hst]
  rw [hack]
  constructor
  · rintro ⟨-, hs3⟩
    obtain ⟨r, hr, hrid, hseq⟩ := hmax.2.resolve_left (by omega)
    exact ⟨r, hr, hrid, hseq ▸ hs3⟩
  · rintro ⟨r, hr, hrid, hqr⟩
    have := hmax.1 r hr hrid
    omega

/-- Any other stream is told where its last sealed file ends. -/
theorem le_helloAck_not_logged (hf : f.Found) (h : f.newServer n = some s) (hid : ¬ f.Logged id) (hq : 0 < q) :
    (q ≤ (s.helloAck id).witnessSeq ∧ q ≤ (s.helloAck id).s3Seq) ↔
      ∃ e ∈ (f.store.streams id).sealedFiles.ends, q ≤ e := by
  obtain ⟨uploadedTo, hack, hend⟩ : ∃ u, (s.helloAck id).witnessSeq = u ∧ (s.helloAck id).s3Seq = u ∧
      LastEnd (s.store.streams id).objects.keys u := by
    simp only [helloAck, getOrCreateStream, newServer_not_logged h hid]
    refine ⟨_, rfl, rfl, ?_⟩
    simp only [onStream, StreamStore.update, Function.update_self]
    refine lastEnd_ensureDiscovered ?_
    rw [(newServer_spec h).2.1]
    simp only [recoveredStore]
    split
    · exact .inl (recoverStream_objects (hf id).1 id _).2
    · exact .inr (hf id).1
  obtain ⟨hs3, hend⟩ := hend
  have hfiles (e) : e ∈ (f.store.streams id).sealedFiles.ends ↔
      ∃ a, StreamFileName.sealed a e ∈ (s.store.streams id).objects.keys := by
    rw [← mem_ends_congr (lookup_recovered hf id), ← (newServer_spec h).2.1, mem_ends]
    simp only [AList.mem_keys]
  rw [hack, hs3, and_self]
  constructor
  · intro hle
    exact ⟨uploadedTo, (hfiles _).2 (hend.2.resolve_left (by omega)), hle⟩
  · rintro ⟨e, he, hle⟩
    obtain ⟨a, ha⟩ := (hfiles e).1 he
    exact hle.trans (hend.1 a e ha)

/-! The theorem. -/

/-- What is stored after the restart was stored before, is a sealed file that was
on disk, or is a counted record. -/
theorem stored_after (hf : f.Found) (h : f.newServer n = some s) (hq : q ∈ s.storedSeqs id) :
    q ∈ f.storedSeqs id ++ (f.store.streams id).sealedFiles.sealedSeqs ∨
      ∃ r ∈ f.localTail, r.streamID = id ∧ r.streamSeq = q := by
  obtain ⟨-, hfiles, hsegs⟩ := newServer_spec h
  rcases mem_storedSeqs.1 hq with ⟨p, records, hp, hr⟩ | hq
  · rcases hsegs p records hp with hp | rfl
    · exact .inl (mem_append_left _ (mem_storedSeqs.2 (.inl ⟨p, records, hp, hr⟩)))
    · exact .inr hr
  · rw [hfiles, Files.mem_sealedSeqs_congr (lookup_recovered hf id)] at hq
    exact .inl (mem_append_right _ hq)

/-- Only what was found in the bucket or sealed on disk can be forgotten. -/
theorem remembers_iff_found (hf : f.Found) (h : f.newServer n = some s)
    (id : UUID) :
    Remembers f s id ↔
      ∀ q ∈ f.storedSeqs id ++ (f.store.streams id).sealedFiles.sealedSeqs, 0 < q →
        q ≤ (s.helloAck id).witnessSeq ∧ q ≤ (s.helloAck id).s3Seq := by
  constructor
  · intro hrem q hq _
    refine hrem q (mem_append.2 ((mem_append.1 hq).imp_right fun hq => ?_))
    refine mem_storedSeqs.2 (.inr ?_)
    rwa [(newServer_spec h).2.1, Files.mem_sealedSeqs_congr (lookup_recovered hf id)]
  · intro hfound q hq
    rcases Nat.eq_zero_or_pos q with rfl | hpos
    · exact ⟨Nat.zero_le _, Nat.zero_le _⟩
    rcases mem_append.1 hq with hq | hq
    · exact hfound q (mem_append_left _ hq) hpos
    · rcases stored_after hf h hq with hq | ⟨r, hr, hid, rfl⟩
      · exact hfound q hq hpos
      · -- the local tail has just been stored and counts
        have hlogged : f.Logged id :=
          ⟨r, mem_append_right _ (mem_of_mem_filter hr), hid, hpos⟩
        exact (le_helloAck_logged h hlogged hpos).2 ⟨r, mem_append_right _ hr, hid, le_rfl⟩

/-- **When a restart remembers a stream**: exactly when the highest sequence number
it has in object storage is still in a segment that is read or in the local
records behind the last segment, or, for a stream that occurs in no segment that
is read and not in the local log, when a sealed file reaches it. -/
theorem restart_remembers_iff {s s' : Server} {keep : Bool} {n : Nat}
    (h : s.restart keep n = some s') (id : UUID) : Remembers s s' id ↔ s.RestartRemembers keep id := by
  have hf := s.crash_found keep
  have hsame : Remembers s s' id ↔ Remembers (s.crash keep) s' id := Iff.rfl
  rw [hsame, remembers_iff_found hf h, Server.RestartRemembers]
  by_cases hid : (s.crash keep).Logged id
  · simp only [hid, not_true_eq_false, false_imp_iff, and_true, true_imp_iff]
    exact forall₃_congr fun q _ hq => le_helloAck_logged h hid hq
  · simp only [hid, not_false_eq_true, false_imp_iff, true_and, true_imp_iff]
    exact forall₃_congr fun q _ hq => le_helloAck_not_logged hf h hid hq

/-- A group commit with nothing in between. -/
def commitAll (items : List IncomingItem) : List BufferEvent :=
  [.server (.commit items none), .server .queue, .server .publish]

/-- The `t`-th flush, which runs alone and stores its batch. -/
def flushAll (t : Nat) : List BufferEvent :=
  .server .flush :: List.replicate 7 (.server (.flusher t true (fun _ => true) 0))

/-- Both streams are in one segment, and nothing is sealed. -/
def unsealedRun : List BufferEvent := commitAll [⟨7, 1, []⟩, ⟨8, 1, []⟩, ⟨7, 2, []⟩] ++ flushAll 0

theorem restart_remembers_unsealed :
    ∃ s s' : Server, s.restart true 0 = some s' ∧ 2 ∈ s.storedSeqs 7 ∧ s.RestartRemembers true 7 ∧
      (Remembers s s' 7 ↔ s.RestartRemembers true 7) :=
  ⟨(exec bufferStep .empty unsealedRun).get (by decide),
    (restart true 0 ((exec bufferStep .empty unsealedRun).get (by decide))).get
      (by decide), (some_get _).symm, by decide, by decide,
    restart_remembers_iff (some_get _).symm 7⟩

/-- Stream 7 goes on alone, is sealed, and loses its second segment. Its first
segment stays for stream 8. -/
def sealedRun : List BufferEvent :=
  commitAll [⟨7, 1, []⟩, ⟨8, 1, []⟩] ++ flushAll 0 ++ commitAll [⟨7, 2, []⟩] ++ flushAll 1 ++
    [.server (.discover 7 true), .server (.sealStream 7 true), .server (.gc fun _ => true)]

/-- The restarted buffer reports 1 for stream 7, whose sealed object holds 2. -/
theorem restart_forgets_sealed :
    ∃ s s' : Server, Reach (· = Server.empty) Server.bufferStep always s ∧
      s.restart false 0 = some s' ∧ 2 ∈ s.storedSeqs 7 ∧ 2 ∈ s'.storedSeqs 7 ∧
      s'.helloAck 7 = { witnessSeq := 1, s3Seq := 1 } :=
  ⟨(exec bufferStep .empty sealedRun).get (by decide),
    (restart false 0 ((exec bufferStep .empty sealedRun).get (by decide))).get
      (by decide), Reach.of_exec rfl (some_get _).symm, (some_get _).symm, by decide,
    by decide, by decide⟩

end InClusterStorage.Wal.Buffer
