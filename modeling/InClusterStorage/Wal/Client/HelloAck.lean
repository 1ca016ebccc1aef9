import InClusterStorage.Lib.Runs
import InClusterStorage.Wal.Client.Stream

/- The handshake against a buffer whose history another client may have written.
   `HelloAck` tells the client the buffer's head `h`. From then on `Wait` returns nil
   for every number up to `h`, so for the client to report nothing foreign as its
   own, its records up to `h` must be those of the buffer.

   `handleHelloAck` compares one record, the one at `h`, and only if the client is
   ahead of the buffer and still retains it. If the payloads differ it discards the
   records above `h`; the record at `h`, just found to differ, and all records
   before it stay and count as acknowledged. So the handshake never mends a
   disagreement at or below the head (`helloAck_sound_iff`). -/
namespace InClusterStorage.Wal.Client

open List Option

open StreamImpl (reserve_cases waitFor_cases accept_sublist accept_localSeq accept_witnessSeq
  accept_degraded adoptHead_spec)

/-- A client with its local history: every record it has given a number to and not
discarded. -/
structure LocalHistory where
  s : StreamImpl
  appended : List ClientRecord
  retained_appended : ∀ r ∈ s.retainedRecords, r ∈ appended
  appended_le : ∀ r ∈ appended, r.streamSeq ≤ s.localSeq

/-- The calls that run while `handleHelloAck` waits for the buffer; local writes
succeed. -/
inductive Call where
  | reserve (payload : List UInt8)
  | insert (rec : ClientRecord)
  | wait (w : SyncWaiter)

def LocalHistory.step (x : LocalHistory) : Call → Option LocalHistory
  | .reserve payload =>
    match h : x.s.reserve payload with
    | none => none
    | some (s, rec) =>
      some
        { s
          appended := x.appended ++ [rec]
          retained_appended := by
            rw [(reserve_cases h).2.2.2.1]
            exact fun r hr => mem_append_left _ (x.retained_appended r hr)
          appended_le := by
            obtain ⟨hseq, hlocal, -⟩ := reserve_cases h
            intro r hr
            rcases mem_append.1 hr with hr | hr
            · have := x.appended_le r hr; omega
            · rw [mem_singleton.1 hr]; omega }
  | .insert rec =>
    if h : rec ∈ x.appended then
      some
        { x with
          s := x.s.insert rec
          retained_appended := by
            intro r hr
            rcases mem_append.1 hr with hr | hr
            · exact x.retained_appended r hr
            · exact mem_singleton.1 hr ▸ h }
    else none
  | .wait w =>
    some
      { x with
        s := (x.s.waitFor w).1
        retained_appended := by rw [(waitFor_cases w x.s).2.2]; exact x.retained_appended
        appended_le := by rw [(waitFor_cases w x.s).1]; exact x.appended_le }

/-- The client in the state `s`; what lies above its `localSeq` is discarded. -/
def LocalHistory.move (x : LocalHistory) (s : StreamImpl)
    (h : ∀ r ∈ s.retainedRecords, r ∈ x.s.retainedRecords ∧ r.streamSeq ≤ s.localSeq) : LocalHistory :=
  { s
    appended := x.appended.filter fun r => r.streamSeq ≤ s.localSeq
    retained_appended := fun r hr =>
      mem_filter.2 ⟨x.retained_appended r (h r hr).1, decide_eq_true (h r hr).2⟩
    appended_le := fun _ hr => of_decide_eq_true (mem_filter.1 hr).2 }

theorem accept_adoptHead_retained (ack : Ack) (h : Nat) {s : StreamImpl}
    (hle : ∀ r ∈ s.retainedRecords, r.streamSeq ≤ s.localSeq) :
    ∀ r ∈ ((s.adoptHead h).acceptHelloAck ack).1.retainedRecords,
      r ∈ s.retainedRecords ∧ r.streamSeq ≤ ((s.adoptHead h).acceptHelloAck ack).1.localSeq := by
  intro r hr
  obtain ⟨hret, -, hlocal, -⟩ := adoptHead_spec h s
  have hr : r ∈ s.retainedRecords := hret ▸ (accept_sublist ack _).1.subset hr
  exact ⟨hr, by rw [accept_localSeq]; exact (hle r hr).trans hlocal⟩

theorem reconcile_retained (ack : Ack) (localRec : ClientRecord) (bufferPayload : Option (List UInt8))
    (truncateOk : Bool) {s : StreamImpl} (hle : ∀ r ∈ s.retainedRecords, r.streamSeq ≤ s.localSeq) :
    ∀ r ∈ (s.reconcile ack localRec bufferPayload truncateOk).1.retainedRecords,
      r ∈ s.retainedRecords ∧ r.streamSeq ≤ (s.reconcile ack localRec bufferPayload truncateOk).1.localSeq := by
  intro r hr
  unfold StreamImpl.reconcile at hr ⊢
  cases bufferPayload with
  | none => exact ⟨hr, hle r hr⟩
  | some payload =>
    simp only at hr ⊢
    split_ifs at hr ⊢ with hsame htrunc
    · have hr := (accept_sublist ack s).1.subset hr
      exact ⟨hr, by rw [accept_localSeq]; exact hle r hr⟩
    · have hr := mem_filter.1 ((accept_sublist ack _).1.subset hr)
      exact ⟨hr.1, by rw [accept_localSeq]; exact of_decide_eq_true hr.2⟩
    · unfold StreamImpl.setDegradedLocked at hr ⊢
      split at hr <;> split <;> exact ⟨hr, hle r hr⟩

/-- `handleHelloAck`: the client afterwards and what its waiters were told, or `none`
where it returns an error. `buffer` is the history of the buffer, `tailOk` says
whether the tail call succeeds, and `during` is what runs meanwhile. -/
def LocalHistory.handleHelloAck (ack : Ack) (buffer : Nat → Option (List UInt8))
    (tailOk truncateOk : Bool) (during : List Call) (x : LocalHistory) :
    Option (LocalHistory × List (SyncWaiter × WaitResult)) :=
  let h := ack.witnessAckedStreamSeq
  match x.s.localRecAtHead h with
  | none =>
    let result := (x.s.adoptHead h).acceptHelloAck ack
    some (x.move result.1 (accept_adoptHead_retained ack h fun r hr =>
      x.appended_le r (x.retained_appended r hr)), result.2)
  | some localRec =>
    match Runs.exec LocalHistory.step x during with
    | none => none
    | some y =>
      let result := y.s.reconcile ack localRec (if tailOk then buffer h else none) truncateOk
      match result.2.2 with
      | some _ => none
      | none =>
        some (y.move result.1 (reconcile_retained _ _ _ _ fun r hr =>
          y.appended_le r (y.retained_appended r hr)), result.2.1)

/-- The client reports only what the buffer holds: `told` is what the waiters were
told, and a record of the local history up to the head `h` must be the buffer's
if a waiter on it was told nil, if `Wait` on it returns nil from now on, or if it is
still retained. A record that disagrees is gone, and its waiters know. -/
structure Sound (buffer : Nat → Option (List UInt8)) (h : Nat) (before after : LocalHistory)
    (told : List (SyncWaiter × WaitResult)) : Prop where
  waiters : ∀ w, (w, WaitResult.ok) ∈ told → w.level = .witness → w.seq ≤ h →
    ∀ r ∈ after.appended, r.streamSeq = w.seq → buffer r.streamSeq = some r.payload
  waits : ∀ q ≤ h, (after.s.waitFor ⟨q, .witness⟩).2 = some .ok →
    ∀ r ∈ after.appended, r.streamSeq = q → buffer r.streamSeq = some r.payload
  retained : ∀ r ∈ after.s.retainedRecords, r.streamSeq ≤ h → buffer r.streamSeq = some r.payload
  discarded : ∀ r ∈ before.appended, (∃ p, buffer r.streamSeq = some p ∧ p ≠ r.payload) →
    r ∉ after.appended ∧ ∀ w ∈ before.s.waiters, w.seq = r.streamSeq → (w, WaitResult.discarded) ∈ told

/-- The local history up to `h` is the buffer's. -/
def LocalHistory.AgreesUpTo (x : LocalHistory) (buffer : Nat → Option (List UInt8)) (h : Nat) : Prop :=
  ∀ r ∈ x.appended, r.streamSeq ≤ h → buffer r.streamSeq = some r.payload

/-- What the calls during the handshake leave alone. -/
structure Extends (x y : LocalHistory) : Prop where
  degraded : y.s.degraded = x.s.degraded
  localSeq : x.s.localSeq ≤ y.s.localSeq
  kept : ∀ r ∈ x.appended, r ∈ y.appended
  fresh : ∀ r ∈ y.appended, r ∈ x.appended ∨ x.s.localSeq < r.streamSeq

theorem extends_step {x y : LocalHistory} {c : Call} (h : x.step c = some y) : Extends x y := by
  cases c with
  | reserve payload =>
    simp only [LocalHistory.step] at h
    split at h
    · simp at h
    · next s rec hr =>
      cases h
      obtain ⟨hseq, hlocal, hdeg, -⟩ := reserve_cases hr
      refine ⟨hdeg, by simp only; omega, fun r hr => mem_append_left _ hr, fun r hr => ?_⟩
      rcases mem_append.1 hr with hr | hr
      · exact .inl hr
      · rw [mem_singleton.1 hr]; exact .inr (by omega)
  | insert rec =>
    simp only [LocalHistory.step] at h
    split at h
    · cases h; exact ⟨rfl, le_rfl, fun r hr => hr, fun r hr => .inl hr⟩
    · simp at h
  | wait w =>
    simp only [LocalHistory.step, some.injEq] at h
    subst h
    obtain ⟨hlocal, hdeg, -⟩ := waitFor_cases w x.s
    exact ⟨hdeg, hlocal.ge, fun r hr => hr, fun r hr => .inl hr⟩

theorem extends_exec {y : LocalHistory} (during : List Call) : ∀ {x : LocalHistory},
    Runs.exec LocalHistory.step x during = some y → Extends x y := by
  induction during with
  | nil =>
    rintro x ⟨⟩
    exact ⟨rfl, le_rfl, fun r hr => hr, fun r hr => .inl hr⟩
  | cons c rest ih =>
    intro x h
    simp only [Runs.exec] at h
    cases hc : x.step c with
    | none => simp [hc] at h
    | some z =>
      rw [hc] at h
      have hz := extends_step hc
      have hy := ih h
      refine ⟨hy.degraded.trans hz.degraded, hz.localSeq.trans hy.localSeq,
        fun r hr => hy.kept r (hz.kept r hr), fun r hr => ?_⟩
      rcases hy.fresh r hr with hr | hlt
      · exact hz.fresh r hr
      · exact .inr (by have := hz.localSeq; omega)

/-- What a handshake that returns nil leaves: the watermark is the buffer's head, and
the local history up to the head is as it was. -/
structure Accepted (h : Nat) (x y : LocalHistory) : Prop where
  degraded : y.s.degraded = x.s.degraded
  witnessSeq : y.s.witnessSeq = h
  localSeq : h ≤ y.s.localSeq
  appended : ∀ r, r.streamSeq ≤ h → (r ∈ y.appended ↔ r ∈ x.appended)

theorem reconcile_nil {ack : Ack} {localRec : ClientRecord} {bufferPayload : Option (List UInt8)}
    {truncateOk : Bool} {s : StreamImpl}
    (h : (s.reconcile ack localRec bufferPayload truncateOk).2.2 = none)
    (hle : ack.witnessAckedStreamSeq ≤ s.localSeq) :
    let s' := (s.reconcile ack localRec bufferPayload truncateOk).1
    s'.degraded = s.degraded ∧ s'.witnessSeq = ack.witnessAckedStreamSeq ∧ ack.witnessAckedStreamSeq ≤ s'.localSeq := by
  unfold StreamImpl.reconcile at h ⊢
  cases bufferPayload with
  | none => simp at h
  | some payload =>
    simp only at h ⊢
    split_ifs at h ⊢ with hsame htrunc
    · simp [hle]
    · simp [StreamImpl.discardAfter]

theorem accepted_of_handleHelloAck {ack : Ack} {buffer : Nat → Option (List UInt8)}
    {tailOk truncateOk : Bool} {during : List Call} {x y : LocalHistory} {told : List (SyncWaiter × WaitResult)}
    (h : x.handleHelloAck ack buffer tailOk truncateOk during = some (y, told)) :
    Accepted ack.witnessAckedStreamSeq x y := by
  unfold LocalHistory.handleHelloAck at h
  have hfilter {z : LocalHistory} {n : Nat} {r : ClientRecord} (hn : ack.witnessAckedStreamSeq ≤ n)
      (hr : r.streamSeq ≤ ack.witnessAckedStreamSeq) :
      (r ∈ z.appended.filter (fun r => r.streamSeq ≤ n) ↔ r ∈ z.appended) := by
    rw [mem_filter, and_iff_left (decide_eq_true (hr.trans hn))]
  simp only at h
  split at h
  · next hnone =>
    obtain ⟨-, hdeg, -, hlocal⟩ := adoptHead_spec ack.witnessAckedStreamSeq x.s
    obtain ⟨rfl, -⟩ := h
    have hle : ack.witnessAckedStreamSeq ≤ ((x.s.adoptHead ack.witnessAckedStreamSeq).acceptHelloAck ack).1.localSeq := by
      rw [accept_localSeq]; exact hlocal
    exact ⟨(accept_degraded _ _).trans hdeg, accept_witnessSeq _ _, hle, fun r hr => hfilter hle hr⟩
  · next localRec hrec =>
    have hahead : ack.witnessAckedStreamSeq < x.s.localSeq := by
      unfold StreamImpl.localRecAtHead at hrec
      split at hrec
      · next hc => exact hc.2
      · simp at hrec
    split at h
    · simp at h
    · next z hz =>
      have hext := extends_exec during hz
      split at h
      · simp at h
      · next hnil =>
        obtain ⟨rfl, -⟩ := h
        obtain ⟨hdeg, hwit, hle⟩ := reconcile_nil hnil (hahead.le.trans hext.localSeq)
        refine ⟨hdeg.trans hext.degraded, hwit, hle, fun r hr => (hfilter hle hr).trans ⟨fun hmem => ?_, hext.kept r⟩⟩
        -- a number assigned during the handshake is above the head
        exact (hext.fresh r hmem).resolve_right (by omega)

/-- **A handshake is sound exactly when the histories agree up to the head.** The
client is not degraded, the buffer holds nothing above its head, and
`handleHelloAck` returns nil. -/
theorem helloAck_sound_iff {ack : Ack} {buffer : Nat → Option (List UInt8)} {tailOk truncateOk : Bool}
    {during : List Call} {x y : LocalHistory} {told : List (SyncWaiter × WaitResult)} (hdeg : x.s.degraded = none)
    (hhead : ∀ q p, buffer q = some p → q ≤ ack.witnessAckedStreamSeq)
    (h : x.handleHelloAck ack buffer tailOk truncateOk during = some (y, told)) :
    Sound buffer ack.witnessAckedStreamSeq x y told ↔ x.AgreesUpTo buffer ack.witnessAckedStreamSeq := by
  have ha := accepted_of_handleHelloAck h
  constructor
  · intro hs r hr hle
    refine hs.waits r.streamSeq hle ?_ r ((ha.appended r hle).2 hr) rfl
    -- the watermark has reached the record, so `Wait` returns nil
    have hlocal := ha.localSeq
    simp only [StreamImpl.waitFor, StreamImpl.reached, ha.degraded.trans hdeg, ha.witnessSeq]
    rw [if_neg (by simp), if_neg (by omega), if_pos (by simp [hle])]
  · intro hagree
    have hafter (r) (hr : r ∈ y.appended) (hle : r.streamSeq ≤ ack.witnessAckedStreamSeq) :
        buffer r.streamSeq = some r.payload := hagree r ((ha.appended r hle).1 hr) hle
    refine ⟨?_, ?_, ?_, ?_⟩
    · intro w _ _ hw r hr heq
      exact hafter r hr (heq ▸ hw)
    · intro q hq _ r hr heq
      exact hafter r hr (heq ▸ hq)
    · intro r hr hle
      exact hafter r (y.retained_appended r hr) hle
    · rintro r hr ⟨p, hp, hne⟩
      have := hagree r hr (hhead _ _ hp)
      rw [hp, some.injEq] at this
      exact absurd this hne

/-- The client has two records of its own. -/
def twoAppended : LocalHistory where
  s :=
    { maxRetainedBytes := 1000, localSeq := 2, retainedRecords := [⟨0, 1, [0xa]⟩, ⟨0, 2, [0xb]⟩]
      waiters := [⟨1, .witness⟩, ⟨2, .witness⟩] }
  appended := [⟨0, 1, [0xa]⟩, ⟨0, 2, [0xb]⟩]
  retained_appended := by decide
  appended_le := by decide

/-- A buffer that holds one record. -/
def oneRecord (payload : List UInt8) (q : Nat) : Option (List UInt8) :=
  if q = 1 then some payload else none

theorem oneRecord_le {payload : List UInt8} : ∀ q p, oneRecord payload q = some p → q ≤ 1 := by
  intro q p h
  unfold oneRecord at h
  split at h
  · omega
  · simp at h

theorem helloAck_sound_same_record :
    ∃ y told, twoAppended.handleHelloAck ⟨1, 0⟩ (oneRecord [0xa]) true true [.reserve [0xc]] =
        some (y, told) ∧ told = [(⟨1, .witness⟩, .ok)] ∧
      twoAppended.AgreesUpTo (oneRecord [0xa]) 1 ∧
      (Sound (oneRecord [0xa]) 1 twoAppended y told ↔ twoAppended.AgreesUpTo (oneRecord [0xa]) 1) := by
  obtain ⟨y, told, h⟩ : ∃ y told,
      twoAppended.handleHelloAck ⟨1, 0⟩ (oneRecord [0xa]) true true [.reserve [0xc]] = some (y, told) :=
    ⟨_, _, rfl⟩
  refine ⟨y, told, h, ?_, ?_, helloAck_sound_iff rfl oneRecord_le h⟩
  · cases h; rfl
  · unfold LocalHistory.AgreesUpTo; decide

/-- The buffer's first record is not the client's. The second record is discarded,
but the waiter on the first is told nil and the client's own first record stays. -/
theorem helloAck_acks_foreign :
    ∃ y told, twoAppended.handleHelloAck ⟨1, 0⟩ (oneRecord [0xf]) true true [] = some (y, told) ∧
      told = [(⟨2, .witness⟩, .discarded), (⟨1, .witness⟩, .ok)] ∧
      (y.s.waitFor ⟨1, .witness⟩).2 = some .ok ∧ y.s.retainedRecords = [⟨0, 1, [0xa]⟩] ∧
      oneRecord [0xf] 1 = some [0xf] :=
  ⟨_, _, rfl, rfl, rfl, rfl, rfl⟩

end InClusterStorage.Wal.Client
