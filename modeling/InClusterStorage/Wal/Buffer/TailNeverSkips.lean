import InClusterStorage.Wal.Buffer.TailPerStream

/- Orderly interleavings of a tailer send every record, in order. The files of the
   stream are consecutive pieces of the commit order (`Ordered`), and the tailer
   reads pieces: if everything before a piece is at most the last number sent,
   then so is everything up to its end once it was read, and nothing was passed
   over (`Sent.sendRecords`). What remains is that the tailer never reads a piece
   before the ones in front of it. -/
namespace InClusterStorage.Wal.Buffer

open Tailer Frame List Option Files StreamFileName AList Runs

/-! Committed numbers that do not go back. -/

/-- Each record lies above all before it or repeats one of their numbers. -/
inductive Climbs : List LogRecord → Prop where
  | nil : Climbs []
  | snoc {l : List LogRecord} {r : LogRecord} (hl : Climbs l)
      (hr : (∀ c ∈ l, c.streamSeq < r.streamSeq) ∨ r.streamSeq ∈ seqs l) : Climbs (l ++ [r])

/-- Behind any point of the commit order a number is new and higher than all
before that point, or occurs before it. -/
theorem Climbs.behind {l : List LogRecord} (h : Climbs l) :
    ∀ {front back : List LogRecord}, l = front ++ back → ∀ c ∈ back,
      (∀ a ∈ front, a.streamSeq < c.streamSeq) ∨ c.streamSeq ∈ seqs front := by
  induction h with
  | nil =>
    intro front back h c hc
    rw [(append_eq_nil_iff.1 h.symm).2] at hc
    simp at hc
  | @snoc l r hl hr ih =>
    intro front back h c hc
    rcases eq_nil_or_concat back with rfl | ⟨back', d, rfl⟩
    · simp at hc
    rw [concat_eq_append, ← append_assoc] at h
    obtain ⟨rfl, hrd⟩ := append_inj' h rfl
    obtain rfl : r = d := by simpa using hrd
    have hback : ∀ c ∈ back', (∀ a ∈ front, a.streamSeq < c.streamSeq) ∨ c.streamSeq ∈ seqs front :=
      ih rfl
    rw [concat_eq_append, mem_append] at hc
    rcases hc with hc | hc
    · exact hback c hc
    · rw [mem_singleton.1 hc]
      rcases hr with hr | hr
      · exact .inl fun a ha => hr a (mem_append_left _ ha)
      · rw [seqs_append, mem_append] at hr
        rcases hr with hr | hr
        · exact .inr hr
        · obtain ⟨d, hd, hdr⟩ := mem_seqs.1 hr
          rw [← hdr]
          exact hback d hd

/-! Sending a piece of the commit order. -/

def Tailer.sentSeqs (t : Tailer) : List Nat := t.sent.map fun a => a.record.streamSeq

/-- The numbers sent increase to `fromSeq`, and no committed number up to it is missing. -/
structure Sent (req : TailRequest) (committed : List LogRecord) (t : Tailer) : Prop where
  increasing : t.sentSeqs.Pairwise (· < ·)
  from_le : req.fromStreamSeq ≤ t.fromSeq
  sent_le : ∀ q ∈ t.sentSeqs, q ≤ t.fromSeq
  fromSeq_mem : t.fromSeq = req.fromStreamSeq ∨ t.fromSeq ∈ seqs committed
  complete : ∀ c ∈ committed, req.fromStreamSeq < c.streamSeq → c.streamSeq ≤ t.fromSeq → c.streamSeq ∈ t.sentSeqs

section
variable {req : TailRequest} {committed : List LogRecord} {t : Tailer}

theorem Sent.sendRecord (hpos : req.fromPosition = 0) (hc : Climbs committed) (ht : Sent req committed t)
    {front : List LogRecord} (back : List LogRecord) {r : LogRecord} (hsplit : committed = front ++ r :: back)
    (hid : r.streamID = req.streamID) (hfront : ∀ a ∈ front, a.streamSeq ≤ t.fromSeq) :
    Sent req committed (sendRecord req r t) ∧
      (∀ a ∈ front ++ [r], a.streamSeq ≤ (sendRecord req r t).fromSeq) ∧ t.fromSeq ≤ (sendRecord req r t).fromSeq := by
  by_cases hle : r.streamSeq ≤ t.fromSeq
  · have hskip : Buffer.sendRecord req r t = t := by simp [Buffer.sendRecord, hle]
    rw [hskip]
    refine ⟨ht, fun a ha => ?_, le_rfl⟩
    rcases mem_append.1 ha with ha | ha
    · exact hfront a ha
    · rwa [mem_singleton.1 ha]
  · have hsend : (Buffer.sendRecord req r t).fromSeq = r.streamSeq ∧
        (Buffer.sendRecord req r t).sentSeqs = t.sentSeqs ++ [r.streamSeq] := by
      simp [Buffer.sendRecord, hle, hid, hpos, sentSeqs]
    obtain ⟨hfrom, hsent⟩ := hsend
    have hup (a) (ha : a ∈ front ++ [r]) : a.streamSeq ≤ r.streamSeq := by
      rcases mem_append.1 ha with ha | ha
      · have := hfront a ha; omega
      · rw [mem_singleton.1 ha]
    refine ⟨⟨?_, ?_, ?_, ?_, ?_⟩, ?_, ?_⟩
    · rw [hsent, pairwise_append]
      refine ⟨ht.increasing, pairwise_singleton _ _, fun q hq q' hq' => ?_⟩
      rw [mem_singleton.1 hq']
      have := ht.sent_le q hq
      omega
    · rw [hfrom]; have := ht.from_le; omega
    · intro q hq
      rw [hsent, mem_append] at hq
      rw [hfrom]
      rcases hq with hq | hq
      · have := ht.sent_le q hq; omega
      · rw [mem_singleton.1 hq]
    · rw [hfrom, hsplit]
      exact .inr (mem_seqs_of_mem (mem_append_right _ mem_cons_self))
    · -- what is up to `r` and in front of it was sent before; behind it nothing new is lower
      have hpiece (c) (hc' : c ∈ front ++ [r]) (hlt : req.fromStreamSeq < c.streamSeq) :
          c.streamSeq ∈ t.sentSeqs ++ [r.streamSeq] := by
        rcases mem_append.1 hc' with hc' | hc'
        · refine mem_append_left _ (ht.complete c ?_ hlt (hfront c hc'))
          rw [hsplit]; exact mem_append_left _ hc'
        · rw [mem_singleton.1 hc']; simp
      intro c hmem hlt hcle
      rw [hsent]
      have hsplit' : committed = (front ++ [r]) ++ back := by rw [hsplit]; simp
      rw [hsplit', mem_append] at hmem
      rcases hmem with hmem | hmem
      · exact hpiece c hmem hlt
      · rcases hc.behind hsplit' c hmem with habove | hrep
        · have := habove r (by simp); omega
        · obtain ⟨d, hd, hdc⟩ := mem_seqs.1 hrep
          rw [← hdc]
          exact hpiece d hd (by omega)
    · rw [hfrom]; exact hup
    · rw [hfrom]; omega

/-- A piece of the commit order that is read when all before it is done is done after it. -/
theorem Sent.sendRecords (hpos : req.fromPosition = 0) (hc : Climbs committed) {back : List LogRecord} :
    ∀ (piece : List LogRecord) {front : List LogRecord} {t : Tailer}, Sent req committed t →
      committed = front ++ (piece ++ back) → (∀ r ∈ piece, r.streamID = req.streamID) →
      (∀ a ∈ front, a.streamSeq ≤ t.fromSeq) →
      Sent req committed (sendRecords req piece t) ∧
        (∀ a ∈ front ++ piece, a.streamSeq ≤ (sendRecords req piece t).fromSeq) ∧
        t.fromSeq ≤ (sendRecords req piece t).fromSeq := by
  intro piece
  induction piece with
  | nil =>
    intro front t ht _ _ hfront
    exact ⟨ht, fun a ha => hfront a (by simpa using ha), le_rfl⟩
  | cons r piece ih =>
    intro front t ht hsplit hid hfront
    obtain ⟨ht', hdone, hle⟩ := ht.sendRecord hpos hc (piece ++ back) hsplit (hid r mem_cons_self) hfront
    obtain ⟨ht'', hdone', hle'⟩ := ih ht' (by rw [hsplit]; simp) (fun r hr => hid r (mem_cons_of_mem _ hr)) hdone
    exact ⟨ht'', fun a ha => hdone' a (by simpa using ha), hle.trans hle'⟩

theorem sendRecords_frame (req : TailRequest) (records : List LogRecord) : ∀ (t : Tailer),
    (sendRecords req records t).snapshot = t.snapshot ∧
      (sendRecords req records t).curOpenFrom = t.curOpenFrom ∧
      (sendRecords req records t).openOffset = t.openOffset := by
  induction records with
  | nil => intro t; exact ⟨rfl, rfl, rfl⟩
  | cons r records ih =>
    intro t
    have hone : (sendRecord req r t).snapshot = t.snapshot ∧
        (sendRecord req r t).curOpenFrom = t.curOpenFrom ∧
        (sendRecord req r t).openOffset = t.openOffset := by
      unfold sendRecord
      split
      · exact ⟨rfl, rfl, rfl⟩
      · split <;> exact ⟨rfl, rfl, rfl⟩
    obtain ⟨h1, h2, h3⟩ := ih (sendRecord req r t)
    exact ⟨h1.trans hone.1, h2.trans hone.2.1, h3.trans hone.2.2⟩

end

/-! Reading files. -/

theorem sum_record_sizes (records : List LogRecord) :
    (records.map fun r => logFormat.headerSize + r.payload.length).sum = (records.flatMap logFormat.encode).length := by
  induction records with
  | nil => rfl
  | cons r rest ih =>
    rw [map_cons, sum_cons, ih, flatMap_cons, length_append, logFormat.length_encode]
    rfl

/-- A read from the start or from the end of a record returns all records from there. -/
theorem readRecordsFromOffset_encodeFile (accept : Bool) {front back : List LogRecord}
    (hfits : ∀ r ∈ front ++ back, r.Fits) {offset : Nat}
    (hoff : (offset = 0 ∧ front = []) ∨ offset = (encodeFile front).length) :
    readRecordsFromOffset accept (some (encodeFile (front ++ back))) offset =
      .ok (back, (encodeFile (front ++ back)).length) := by
  have hback (r) (hr : r ∈ back) : logFormat.Fits r := hfits r (mem_append_right _ hr)
  have hbytes : encodeFile (front ++ back) = encodeFile front ++ back.flatMap logFormat.encode := by
    simp [encodeFile]
  have hscan : logFormat.scanAll (back.flatMap logFormat.encode) = (back, []) := by
    have := logFormat.scanAll_encode hback logFormat.decode_nil
    rwa [append_nil] at this
  have hread : ∀ offset, offset = (encodeFile front).length →
      logFormat.scanAll ((encodeFile (front ++ back)).drop offset) = (back, []) := by
    rintro offset rfl
    rw [hbytes, drop_left' rfl, hscan]
  have hlen : (encodeFile front).length + (back.flatMap logFormat.encode).length =
      (encodeFile (front ++ back)).length := by rw [hbytes, length_append]
  unfold readRecordsFromOffset
  rcases hoff with ⟨rfl, rfl⟩ | rfl
  · have hhead : readSegmentHeader accept (encodeFile ([] ++ back)) = .ok segmentHeaderSize :=
      readSegmentHeader_default accept _
    have hsize : segmentHeaderSize = (encodeFile []).length := rfl
    simp only [if_true, hhead, hread _ hsize, sum_record_sizes]
    rw [hsize, hlen]
  · have hne : (encodeFile front).length ≠ 0 := by simp [encodeFile, segmentHeaderSize]
    simp only [if_neg hne, hread _ rfl, sum_record_sizes, hlen]

/-! The invariant. -/

/-- How many files of its list the tailer is through with. -/
def Tailer.through (t : Tailer) : Nat :=
  match t.pc with
  | .sealedFile i => i
  | .openFrom | .openFile => t.snapshot.length
  | _ => 0

def Tailer.names (t : Tailer) : List (Nat × Nat) := t.snapshot.map fun m => (m.fromSeq, m.toSeq)

structure TailInv (req : TailRequest) (x : TailState) : Prop where
  ordered : Ordered x.s x.committed
  climbs : Climbs x.committed
  committed_ok : ∀ r ∈ x.committed, r.streamID = req.streamID ∧ r.Fits
  sent : Sent req x.committed x.t
  /-- the list the tailer took is the first part of the present one -/
  names_prefix : x.t.names <+: x.s.w.names
  snapshot_path : ∀ m ∈ x.t.snapshot, m.path = some m.name
  /-- all records of the files it is through with are done -/
  through_done : ∀ r ∈ x.s.dir.recordsOf (x.t.names.take x.t.through), r.streamSeq ≤ x.t.fromSeq
  /-- the offset is the start of the file or the end of records that are done -/
  offset_ok : ∀ data, x.s.dir.lookup (.opened x.t.curOpenFrom) = some data →
    ∃ front back, data = front ++ back ∧ (∀ r ∈ front, r.streamSeq ≤ x.t.fromSeq) ∧
      ((x.t.openOffset = 0 ∧ front = []) ∨ x.t.openOffset = (encodeFile front).length)
  /-- a file that is not there starts at zero, or has been sealed -/
  offset_gone : StreamFileName.opened x.t.curOpenFrom ∉ x.s.dir →
    x.t.openOffset = 0 ∨ ∃ n ∈ x.s.w.names, x.t.curOpenFrom ≤ n.2

theorem tailInv_start (req : TailRequest) : TailInv req (.start req) := by
  refine ⟨ordered_new, .nil, by simp [TailState.start], ⟨?_, le_rfl, ?_, .inl rfl, ?_⟩,
    nil_prefix, by simp [TailState.start], by simp [TailState.start, recordsOf, names],
    ?_, fun _ => .inl rfl⟩
  · exact List.Pairwise.nil
  · simp [sentSeqs, TailState.start]
  · simp [TailState.start]
  · intro data h
    simp [TailState.start] at h

section
variable {req : TailRequest}

variable {x : TailState}

section

variable (hi : TailInv req x)
include hi

/-- Steps of the writer: the sealed files stay, new ones come behind them, and the
file the tailer reads grows or is sealed. -/
theorem TailInv.writer_step {x' : TailState} (ht : x'.t = x.t)
    (hord : Ordered x'.s x'.committed) (hclimbs : Climbs x'.committed)
    (hok : ∀ r ∈ x'.committed, r.streamID = req.streamID ∧ r.Fits) (hsent : Sent req x'.committed x.t)
    (hnames : x.s.w.names <+: x'.s.w.names)
    (hrecords : ∀ n ∈ x.s.w.names, x'.s.dir.records (.sealed n.1 n.2) = x.s.dir.records (.sealed n.1 n.2))
    (hgrow : ∀ f data, x'.s.dir.lookup (.opened f) = some data →
      (∃ old, x.s.dir.lookup (.opened f) = some old ∧ old <+: data) ∨
      (opened f ∉ x.s.dir ∧ ∀ n ∈ x.s.w.names, n.2 < f))
    (hgone : ∀ f, opened f ∉ x'.s.dir → opened f ∈ x.s.dir → ∃ n ∈ x'.s.w.names, f ≤ n.2) : TailInv req x' := by
  constructor
  · exact hord
  · exact hclimbs
  · exact hok
  · rw [ht]; exact hsent
  · rw [ht]; exact hi.names_prefix.trans hnames
  · rw [ht]; exact hi.snapshot_path
  · rw [ht]
    intro r hr
    refine hi.through_done r ?_
    have hsub (n) (hn : n ∈ x.t.names.take x.t.through) : n ∈ x.s.w.names :=
      hi.names_prefix.subset (mem_of_mem_take hn)
    rwa [recordsOf_congr fun n hn => hrecords n (hsub n hn)] at hr
  · rw [ht]
    intro data hdata
    rcases hgrow _ data hdata with ⟨old, hold, hpre⟩ | ⟨hnew, hlow⟩
    · obtain ⟨front, back, rfl, hfront, hoff⟩ := hi.offset_ok old hold
      obtain ⟨rest, rfl⟩ := hpre
      exact ⟨front, back ++ rest, by simp, hfront, hoff⟩
    · rcases hi.offset_gone hnew with h0 | ⟨n, hn, hle⟩
      · exact ⟨[], data, rfl, by simp, .inl ⟨h0, rfl⟩⟩
      · have := hlow n hn; omega
  · rw [ht]
    intro hnot
    by_cases hin : opened x.t.curOpenFrom ∈ x.s.dir
    · exact .inr (hgone _ hnot hin)
    · rcases hi.offset_gone hin with h0 | ⟨n, hn, hle⟩
      · exact .inl h0
      · exact .inr ⟨n, hnames.subset hn, hle⟩

theorem TailInv.flush : TailInv req { x with s := flushPendingLocked x.s } := by
  refine hi.writer_step rfl (ordered_flush hi.ordered) hi.climbs hi.committed_ok hi.sent ?_ ?_ ?_ ?_
  · simp [names_flush]
  · exact fun n _ => flush_records_sealed x.s n.1 n.2
  · intro f data h
    cases hp : x.s.w.pending with
    | nil =>
      rw [flush_nil hp] at h
      exact .inl ⟨data, h, prefix_refl _⟩
    | cons first rest =>
      simp only [flush_cons hp] at h
      by_cases hf : opened f = .opened (x.s.w.flushFrom first)
      · obtain rfl := opened.inj hf
        rw [lookup_insert, some.injEq] at h
        cases hold : x.s.dir.lookup (.opened (x.s.w.flushFrom first)) with
        | some old =>
          refine .inl ⟨old, rfl, ?_⟩
          rw [← h, records, hold]
          exact prefix_append _ _
        | none =>
          -- a new file is opened above all that is sealed
          refine .inr ⟨lookup_eq_none.1 hold, fun n hn => ?_⟩
          have hfirst : first ∈ x.s.unsealed :=
            mem_append_right _ (by rw [hp]; exact mem_cons_self)
          rw [StreamWriter.flushFrom]
          split_ifs with h0 hz
          · exact hi.ordered.above n hn first hfirst
          · exact absurd hz (hi.ordered.open_ne_zero h0)
          · exact (hi.ordered.above_open h0).1 n hn
      · rw [lookup_insert_ne hf] at h
        exact .inl ⟨data, h, prefix_refl _⟩
  · intro f hnot hin
    cases hp : x.s.w.pending with
    | nil => rw [flush_nil hp] at hnot; exact absurd hin hnot
    | cons first rest =>
      simp only [flush_cons hp, mem_insert, not_or] at hnot
      exact absurd hin hnot.2

theorem TailInv.rename (hp : x.s.w.pending = []) (hc : x.s.w.recCount ≠ 0) {data : List LogRecord}
    (hd : x.s.dir.lookup (.opened x.s.w.openFrom) = some data) : TailInv req { x with s := afterRename data x.s } := by
  have hord := hi.ordered
  refine hi.writer_step rfl (ordered_rename hord hp hc hd) hi.climbs hi.committed_ok hi.sent ?_ ?_ ?_ ?_
  · rw [names_afterRename]; exact prefix_append _ _
  · exact fun n hn => hord.records_afterRename hc data hn
  · intro f data' h
    exact absurd (lookup_isSome.1 (by rw [h]; rfl)) (hord.toOpenFile.not_mem_afterRename data f)
  · intro f _ hin
    refine ⟨(x.s.w.openFrom, x.s.w.lastSeq), by simp, ?_⟩
    rw [(hord.opened_mem f hin).1]
    exact (hord.above_open hc).2

/-- Steps that change neither the directory nor the names of the sealed files. -/
theorem TailInv.same_files {s' : Stream}
    (hord : Ordered s' x.committed) (hdir : s'.dir = x.s.dir) (hnames : s'.w.names = x.s.w.names) :
    TailInv req { x with s := s' } := by
  refine hi.writer_step rfl hord hi.climbs hi.committed_ok hi.sent ?_ ?_ ?_ ?_
  · simp [hnames]
  · simp [hdir]
  · intro f data h
    rw [hdir] at h
    exact .inl ⟨data, h, prefix_refl _⟩
  · intro f hnot hin
    rw [hdir] at hnot
    exact absurd hin hnot

theorem TailInv.seal (putOk : Bool) : TailInv req { x with s := sealLocked putOk x.s } := by
  have hf := hi.flush
  rcases renameOpen_cases (flushPendingLocked x.s) with hn | ⟨data, hc, -, hd, hr⟩
  · rw [sealLocked_none hn]; exact hf
  · rw [sealLocked_some hr]
    have hren := hf.rename (flush_pending x.s) hc hd
    exact hren.same_files (ordered_uploadAt hren.ordered putOk _) (by simp) (by simp)

theorem TailInv.commit {r : LogRecord} (hid : r.streamID = req.streamID) (hpos : 0 < r.streamSeq) (hfits : r.Fits)
    (habove : ∀ n ∈ x.s.w.names, n.2 < r.streamSeq)
    (hclimb : (∀ c ∈ x.committed, c.streamSeq < r.streamSeq) ∨ r.streamSeq ∈ seqs x.committed) :
    TailInv req { x with s := (appendRecords [r] x.s).1, committed := x.committed ++ [r] } := by
  have hs : (appendRecords [r] x.s).1 = { x.s with w := { x.s.w with pending := x.s.w.pending ++ [r] } } := by
    simp [appendRecords, hi.ordered.live]
  have hsent := hi.sent
  refine hi.writer_step rfl (ordered_commit hi.ordered (forall_mem_singleton.2 ⟨hpos, habove⟩)) (.snoc hi.climbs hclimb) ?_
    ⟨hsent.increasing, hsent.from_le, hsent.sent_le, ?_, ?_⟩ ?_ ?_ ?_ ?_
  · intro c hc
    rcases mem_append.1 hc with hc | hc
    · exact hi.committed_ok c hc
    · rw [mem_singleton.1 hc]; exact ⟨hid, hfits⟩
  · refine hsent.fromSeq_mem.imp_right fun h => ?_
    rw [seqs_append]
    exact mem_append_left _ h
  · -- a new number is above `fromSeq`, a repeated one was complete before
    intro c hc hlt hle
    rcases mem_append.1 hc with hc | hc
    · exact hsent.complete c hc hlt hle
    rw [mem_singleton.1 hc] at hlt hle ⊢
    rcases hclimb with hnew | hrep
    · rcases hsent.fromSeq_mem with h | h
      · omega
      · obtain ⟨d, hd, hdf⟩ := mem_seqs.1 h
        have := hnew d hd
        omega
    · obtain ⟨d, hd, hdr⟩ := mem_seqs.1 hrep
      rw [← hdr] at hlt hle ⊢
      exact hsent.complete d hd hlt hle
  · rw [hs]; exact prefix_refl _
  · rw [hs]; exact fun n _ => rfl
  · rw [hs]; exact fun f data h => .inl ⟨data, h, prefix_refl _⟩
  · rw [hs]; exact fun f hnot hin => absurd hin hnot

/-- The tailer goes on without sending: only its place and its list may change. -/
theorem TailInv.tailer_step {t' : Tailer} (hfrom : t'.fromSeq = x.t.fromSeq) (hsent : t'.sent = x.t.sent)
    (hnames : t'.names <+: x.s.w.names) (hpath : ∀ m ∈ t'.snapshot, m.path = some m.name)
    (hdone : ∀ r ∈ x.s.dir.recordsOf (t'.names.take t'.through), r.streamSeq ≤ x.t.fromSeq)
    (hcur : t'.curOpenFrom = x.t.curOpenFrom ∧ t'.openOffset = x.t.openOffset ∨ t'.openOffset = 0) :
    TailInv req { x with t := t' } := by
  have hs := hi.sent
  have hseqs : t'.sentSeqs = x.t.sentSeqs := by rw [sentSeqs, hsent, sentSeqs]
  refine ⟨hi.ordered, hi.climbs, hi.committed_ok, ⟨?_, ?_, ?_, ?_, ?_⟩, hnames, hpath, ?_, ?_, ?_⟩
  · rw [hseqs]; exact hs.increasing
  · rw [hfrom]; exact hs.from_le
  · rw [hseqs, hfrom]; exact hs.sent_le
  · rw [hfrom]; exact hs.fromSeq_mem
  · rw [hseqs, hfrom]; exact hs.complete
  · rw [hfrom]; exact hdone
  · intro data hdata
    rw [hfrom]
    rcases hcur with ⟨hc, ho⟩ | h0
    · rw [hc] at hdata
      rw [ho]
      exact hi.offset_ok data hdata
    · exact ⟨[], data, rfl, by simp, .inl ⟨h0, rfl⟩⟩
  · intro hnot
    rcases hcur with ⟨hc, ho⟩ | h0
    · rw [hc] at hnot ⊢
      rw [ho]
      exact hi.offset_gone hnot
    · exact .inl h0

theorem TailInv.goto {pc : TailPc}
    (hthrough : Tailer.through { x.t with pc } = 0) : TailInv req { x with t := { x.t with pc } } := by
  refine hi.tailer_step rfl rfl hi.names_prefix hi.snapshot_path ?_ (.inl ⟨rfl, rfl⟩)
  rw [hthrough]
  simp [recordsOf]

theorem TailInv.snapshot :
    TailInv req { x with
      s := (getSealedMetas true x.s).1
      t := { x.t with snapshot := (getSealedMetas true x.s).2, pc := .sealedFile 0 } } := by
  have hx : TailInv req { x with s := (getSealedMetas true x.s).1 } := by
    unfold getSealedMetas
    split
    · exact hi
    · obtain ⟨hord, hnames⟩ := ordered_discover hi.ordered true
      refine hi.same_files hord ?_ hnames
      simp [discoverRemoteSealedLocked]
  refine hx.tailer_step rfl rfl (prefix_refl _) hx.ordered.path ?_ (.inl ⟨rfl, rfl⟩)
  simp [through, recordsOf]

/-- The records of the first sealed files, of the next one, and the rest are the
committed ones. -/
theorem TailInv.split_at {i : Nat} {sm : StreamMeta}
    (hsm : x.t.snapshot[i]? = some sm) :
    x.t.names.take (i + 1) = x.t.names.take i ++ [(sm.fromSeq, sm.toSeq)] ∧
      (sm.fromSeq, sm.toSeq) ∈ x.s.w.names ∧
      ∃ back, x.committed = x.s.dir.recordsOf (x.t.names.take i) ++
        (x.s.dir.records (.sealed sm.fromSeq sm.toSeq) ++ back) := by
  have hget : x.t.names[i]? = some (sm.fromSeq, sm.toSeq) := by
    rw [names, getElem?_map, hsm]; rfl
  have htake : x.t.names.take (i + 1) = x.t.names.take i ++ [(sm.fromSeq, sm.toSeq)] := by
    rw [take_add_one, hget]; rfl
  obtain ⟨more, hmore⟩ := hi.names_prefix
  refine ⟨htake, hi.names_prefix.subset (mem_of_getElem? hget), ?_⟩
  have hall : x.s.w.names = x.t.names.take i ++ ([(sm.fromSeq, sm.toSeq)] ++ (x.t.names.drop (i + 1) ++ more)) := by
    rw [← hmore, ← append_assoc _ [_], ← htake, ← append_assoc, take_append_drop]
  refine ⟨x.s.dir.recordsOf (x.t.names.drop (i + 1) ++ more) ++ x.s.unsealed, ?_⟩
  rw [hi.ordered.split, hall, recordsOf_append, recordsOf_append]
  simp [recordsOf]

/-- A sealed file on disk is read as the records it holds. -/
theorem TailInv.readSealed {i : Nat} {sm : StreamMeta}
    (hsm : x.t.snapshot[i]? = some sm) :
    readSealed req x.s sm = some (x.s.dir.records (.sealed sm.fromSeq sm.toSeq)) := by
  obtain ⟨-, hmem, back, hsplit⟩ := hi.split_at hsm
  have hne := hi.ordered.sealed_ne_nil _ hmem
  have hpath : sm.path = some (.sealed sm.fromSeq sm.toSeq) :=
    hi.snapshot_path sm (mem_of_getElem? hsm)
  have hfits : ∀ r ∈ [] ++ x.s.dir.records (.sealed sm.fromSeq sm.toSeq), r.Fits := by
    intro r hr
    refine (hi.committed_ok r ?_).2
    rw [hsplit]
    exact mem_append_right _ (mem_append_left _ hr)
  have hlook : x.s.dir.lookup (.sealed sm.fromSeq sm.toSeq) = some (x.s.dir.records (.sealed sm.fromSeq sm.toSeq)) := by
    unfold records at hne ⊢
    cases h : x.s.dir.lookup (.sealed sm.fromSeq sm.toSeq) with
    | none => simp [h] at hne
    | some data => rfl
  have hread := readRecordsFromOffset_encodeFile req.acceptUnversioned hfits (.inl ⟨rfl, rfl⟩)
  rw [nil_append] at hread
  simp only [Buffer.readSealed, hpath, hlook, map_some, hread, ne_eq, hne, not_false_eq_true, if_true]

/-- After a piece of the commit order was sent, whatever was done stays done. -/
theorem TailInv.sent_step {t' : Tailer} (hsent : Sent req x.committed t') (hle : x.t.fromSeq ≤ t'.fromSeq)
    (hsnap : t'.snapshot = x.t.snapshot) (hcur : t'.curOpenFrom = x.t.curOpenFrom)
    (hdone : ∀ r ∈ x.s.dir.recordsOf (x.t.names.take t'.through), r.streamSeq ≤ t'.fromSeq)
    (hoff : t'.openOffset = x.t.openOffset ∨ ∃ data, x.s.dir.lookup (.opened x.t.curOpenFrom) = some data ∧
      t'.openOffset = (encodeFile data).length ∧ ∀ r ∈ data, r.streamSeq ≤ t'.fromSeq) :
    TailInv req { x with t := t' } := by
  have hnames : t'.names = x.t.names := by rw [names, hsnap, names]
  refine ⟨hi.ordered, hi.climbs, hi.committed_ok, hsent, ?_, ?_, ?_, ?_, ?_⟩
  · rw [hnames]; exact hi.names_prefix
  · rw [hsnap]; exact hi.snapshot_path
  · rw [hnames]; exact hdone
  · intro data (hdata : x.s.dir.lookup (.opened t'.curOpenFrom) = some data)
    rw [hcur] at hdata
    rcases hoff with ho | ⟨data', hdata', ho, hall⟩
    · obtain ⟨front, back, rfl, hfront, hoff⟩ := hi.offset_ok data hdata
      exact ⟨front, back, rfl, fun r hr => (hfront r hr).trans hle, ho ▸ hoff⟩
    · obtain rfl := some.inj (hdata.symm.trans hdata')
      exact ⟨data, [], by simp, hall, .inr ho⟩
  · intro hnot
    simp only [hcur] at hnot ⊢
    rcases hoff with ho | ⟨data', hdata', -⟩
    · rw [ho]; exact hi.offset_gone hnot
    · exact absurd (lookup_isSome.1 (by rw [hdata']; rfl)) hnot

end

theorem TailInv.sealedFile (hpos : req.fromPosition = 0) (hi : TailInv req x) {i : Nat}
    (hpc : x.t.pc = .sealedFile i) : TailInv req { x with
      s := (tailStep req x.s x.t).1, t := (tailStep req x.s x.t).2 } := by
  have hdone := hi.through_done
  simp only [through, hpc] at hdone
  unfold tailStep
  simp only [hpc]
  cases hsm : x.t.snapshot[i]? with
  | none =>
    refine hi.tailer_step rfl rfl hi.names_prefix hi.snapshot_path ?_ (.inl ⟨rfl, rfl⟩)
    have hlen : x.t.snapshot.length ≤ i := getElem?_eq_none_iff.1 hsm
    have hn : x.t.names.length = x.t.snapshot.length := length_map _
    rw [take_of_length_le (by omega)] at hdone
    exact fun r hr => hdone r (by rwa [through, names, take_of_length_le (by simp)] at hr)
  | some sm =>
    obtain ⟨htake, hmem, back, hsplit⟩ := hi.split_at hsm
    have hnext (fromSeq) (hall : ∀ a ∈ x.s.dir.recordsOf (x.t.names.take i) ++
        x.s.dir.records (.sealed sm.fromSeq sm.toSeq), a.streamSeq ≤ fromSeq) (r)
            (hr : r ∈ x.s.dir.recordsOf (x.t.names.take (i + 1))) : r.streamSeq ≤ fromSeq := by
      rw [htake, recordsOf_append] at hr
      exact hall r (by simpa [recordsOf] using hr)
    simp only
    split
    · next hskip =>
      -- a file that ends at or below the last number sent has nothing new
      refine hi.tailer_step rfl rfl hi.names_prefix hi.snapshot_path (hnext _ fun a ha => ?_) (.inl ⟨rfl, rfl⟩)
      rcases mem_append.1 ha with ha | ha
      · exact hdone a ha
      · exact ((hi.ordered.range _ hmem).2 a ha).trans hskip
    · rw [hi.readSealed hsm]
      have hid (r) (hr : r ∈ x.s.dir.records (.sealed sm.fromSeq sm.toSeq)) : r.streamID = req.streamID := by
        refine (hi.committed_ok r ?_).1
        rw [hsplit]
        exact mem_append_right _ (mem_append_left _ hr)
      obtain ⟨hsent, hall, hle⟩ := Sent.sendRecords hpos hi.climbs _ hi.sent hsplit hid hdone
      obtain ⟨hsnap, hcur, hoff⟩ := sendRecords_frame req (x.s.dir.records (.sealed sm.fromSeq sm.toSeq)) x.t
      refine hi.sent_step { hsent with } hle hsnap hcur (hnext _ hall) (.inl hoff)

theorem TailInv.openFile (hpos : req.fromPosition = 0) (hi : TailInv req x) (hpc : x.t.pc = .openFile)
    (hok : (∀ r ∈ x.sealedSince, r.streamSeq ≤ x.t.fromSeq) ∨ (readOpen req x.s x.t).toOption.map Prod.fst = some []) :
    TailInv req { x with s := (tailStep req x.s x.t).1, t := (tailStep req x.s x.t).2 } := by
  have hord := hi.ordered
  unfold tailStep
  simp only [hpc]
  split
  case isFalse => exact hi.goto rfl
  cases hlook : x.s.dir.lookup (.opened x.t.curOpenFrom) with
  | none =>
    -- the file has been sealed: nothing is read
    have hread : readOpen req x.s x.t = .ok ([], x.t.openOffset) := by
      simp only [readOpen, hlook, map_none, readRecordsFromOffset]
    simp only [hread]
    exact hi.goto rfl
  | some data =>
    have hcur : x.t.curOpenFrom = x.s.w.openFrom :=
      (hord.opened_mem _ (lookup_isSome.1 (by rw [hlook]; rfl))).1
    have hdata : x.s.dir.records (.opened x.s.w.openFrom) = data := by
      rw [records, ← hcur, hlook, getD_some]
    have hsplit : x.committed = x.s.dir.recordsOf x.s.w.names ++ (data ++ x.s.w.pending) := by
      rw [hord.split, Stream.unsealed, hdata]
    have hcommitted (r) (hr : r ∈ data) : r ∈ x.committed := by
      rw [hsplit]
      exact mem_append_right _ (mem_append_left _ hr)
    obtain ⟨front, back, hfb, hfront, hoff⟩ := hi.offset_ok data hlook
    have hread : readOpen req x.s x.t = .ok (back, (encodeFile data).length) := by
      have hfits (r) (hr : r ∈ front ++ back) : r.Fits := (hi.committed_ok r (hcommitted r (hfb ▸ hr))).2
      have := readRecordsFromOffset_encodeFile req.acceptUnversioned hfits hoff
      simp only [readOpen, hlook, map_some, hfb, this]
    simp only [hread]
    -- the tailer is through with its list; what was sealed since is done, or nothing is read
    have hlist : ∀ r ∈ x.s.dir.recordsOf x.t.names, r.streamSeq ≤ x.t.fromSeq := by
      have := hi.through_done
      simp only [through, hpc] at this
      rwa [take_of_length_le (by simp [names])] at this
    have hseals : back ≠ [] → ∀ r ∈ x.s.dir.recordsOf x.s.w.names, r.streamSeq ≤ x.t.fromSeq := by
      intro hne r hr
      have hdrop : x.s.w.names = x.t.names ++ x.s.w.names.drop x.t.snapshot.length := by
        obtain ⟨more, hmore⟩ := hi.names_prefix
        have hlen : x.t.names.length = x.t.snapshot.length := length_map _
        rw [← hmore, drop_left' hlen]
      rw [hdrop, recordsOf_append, mem_append] at hr
      rcases hr with hr | hr
      · exact hlist r hr
      · refine hok.resolve_right (fun h => hne ?_) r hr
        rw [hread] at h
        simpa [Except.toOption] using h
    cases back with
    | nil =>
      refine hi.sent_step { hi.sent with } le_rfl rfl rfl (by simp [through, recordsOf])
        (.inr ⟨data, hlook, rfl, fun r hr => hfront r ?_⟩)
      rw [hfb] at hr
      simpa using hr
    | cons b rest =>
      have hid : ∀ r ∈ b :: rest, r.streamID = req.streamID := fun r hr =>
        (hi.committed_ok r (hcommitted r (by rw [hfb]; exact mem_append_right _ hr))).1
      have hsplit' : x.committed = (x.s.dir.recordsOf x.s.w.names ++ front) ++ ((b :: rest) ++ x.s.w.pending) := by
        rw [hsplit, hfb]; simp
      have hdone (a) (ha : a ∈ x.s.dir.recordsOf x.s.w.names ++ front) : a.streamSeq ≤ x.t.fromSeq := by
        rcases mem_append.1 ha with ha | ha
        · exact hseals (by simp) a ha
        · exact hfront a ha
      have hsent₀ : Sent req x.committed { x.t with openOffset := (encodeFile data).length, pc := .openFile } :=
        { hi.sent with }
      obtain ⟨hsent, hall, hle⟩ := Sent.sendRecords hpos hi.climbs _ hsent₀ hsplit' hid hdone
      obtain ⟨hsnap, hcur', hoff'⟩ := sendRecords_frame req (b :: rest)
        { x.t with openOffset := (encodeFile data).length, pc := .openFile }
      refine hi.sent_step { hsent with }
        hle hsnap hcur' (by simp [through, recordsOf])
        (.inr ⟨data, hlook, hoff', fun r hr => hall r ?_⟩)
      rw [hfb] at hr
      rw [append_assoc]
      exact mem_append_right _ hr

theorem tailInv_step (hpos : req.fromPosition = 0) (x : TailState) (e : TailEvent) (x' : TailState)
    (hi : TailInv req x) (hok : x.Orderly req e) (hs : x.step req e = some x') : TailInv req x' := by
  cases e with
  | commit r =>
    simp only [TailState.step] at hs
    split at hs
    · next hr =>
      cases hs
      exact hi.commit hr.1 hr.2.1 hr.2.2 hok.1 hok.2
    · simp at hs
  | flush => cases hs; exact hi.flush
  | sealFile putOk => cases hs; exact hi.seal putOk
  | tail =>
    cases hs
    cases hpc : x.t.pc with
    | flush =>
      simp only [tailStep, hpc]
      exact hi.flush.goto rfl
    | snapshot =>
      simp only [tailStep, hpc]
      exact hi.snapshot
    | sealedFile i => exact hi.sealedFile hpos hpc
    | openFrom =>
      have hdone := hi.through_done
      simp only [through, hpc] at hdone
      simp only [tailStep, hpc]
      refine hi.tailer_step rfl rfl hi.names_prefix hi.snapshot_path hdone ?_
      by_cases h : x.s.w.openFrom = x.t.curOpenFrom
      · exact .inl ⟨h, if_neg (not_not.2 h)⟩
      · exact .inr (if_pos h)
    | openFile => exact hi.openFile hpos hpc (hok hpc)
    | wait =>
      simp only [tailStep, hpc]
      exact hi.goto rfl
    | failed => simpa only [tailStep, hpc] using hi

end

/-- **A tailer never skips a record in an orderly interleaving.** Whatever the steps
of the tailer interleave with, if each commit lies above all that is sealed and
does not go back, and each read of the open file finds nothing or finds all that
was sealed since the list was taken already sent, then the numbers sent are
strictly increasing, and each record is sent after all committed before it. -/
theorem tail_never_skips {req : TailRequest} (hpos : req.fromPosition = 0) {x : TailState}
    (h : Reach (· = .start req) (TailState.step req) (TailState.Orderly req) x) : x.NoSkip req := by
  have hi : TailInv req x := h.inv (by rintro _ rfl; exact tailInv_start req) (tailInv_step hpos)
  have hinc := hi.sent.increasing
  refine ⟨hinc, ?_⟩
  intro pre a post hsent before after hcom c hc hlt hca
  have hseqs : x.t.sentSeqs = (pre.map fun a => a.record.streamSeq) ++
      a.record.streamSeq :: post.map fun a => a.record.streamSeq := by
    rw [sentSeqs, hsent, map_append, map_cons]
  have hle : a.record.streamSeq ≤ x.t.fromSeq := hi.sent.sent_le _ (by rw [hseqs]; simp)
  have hmem := hi.sent.complete c (by rw [hcom]; exact mem_append_left _ hc) hlt (by omega)
  rw [hseqs, mem_append, mem_cons] at hmem
  rw [hseqs, pairwise_append, pairwise_cons] at hinc
  rcases hmem with hmem | hmem | hmem
  · exact hmem
  · omega
  · have := hinc.2.1.1 _ hmem
    omega

/-- Two rounds of the tailer; a record is sealed while it waits, and the next one is
delivered twice. -/
def orderlyTail : List TailEvent :=
  [.commit ⟨1, 7, 1, []⟩, .tail, .tail, .tail, .tail, .tail, .sealFile true, .commit ⟨2, 7, 2, []⟩,
   .commit ⟨3, 7, 2, []⟩, .tail, .tail, .tail, .tail, .tail, .tail, .tail]

theorem tail_never_skips_orderlyTail :
    ∃ x : TailState, x.t.sent.map (fun a => a.record.streamSeq) = [1, 2] ∧
      x.NoSkip { streamID := 7, fromStreamSeq := 0 } :=
  ⟨(exec (TailState.step { streamID := 7, fromStreamSeq := 0 }) (.start _) orderlyTail).get
      (by decide +kernel), by decide +kernel,
    tail_never_skips rfl (Reach.exec (.start rfl) (by decide +kernel) (some_get _).symm)⟩

/-- The tailer takes the list of sealed files while it is empty. A record is then
committed and sealed, the next one is committed and flushed, and the tailer goes
on to the open file. -/
def sealedBehindTail : List TailEvent :=
  [.tail, .tail, .tail, .commit ⟨1, 7, 1, []⟩, .sealFile true, .commit ⟨2, 7, 2, []⟩, .flush, .tail, .tail]

/-- The second record is sent and the first is not. -/
theorem tail_skips_sealed :
    ∃ x, Reach (· = .start { streamID := 7, fromStreamSeq := 0 })
        (TailState.step { streamID := 7, fromStreamSeq := 0 }) always x ∧
      ¬ x.NoSkip { streamID := 7, fromStreamSeq := 0 } := by
  refine ⟨(exec (TailState.step { streamID := 7, fromStreamSeq := 0 }) (.start _)
    sealedBehindTail).get (by decide +kernel), Reach.of_exec rfl (some_get _).symm, ?_⟩
  intro h
  have hskip := h.2 [] ⟨⟨2, 7, 2, []⟩, 1⟩ [] (by decide +kernel) [⟨1, 7, 1, []⟩] [] (by decide +kernel)
    ⟨1, 7, 1, []⟩ (by decide) (by decide) (by decide)
  simp at hskip

end InClusterStorage.Wal.Buffer
