import Mathlib.Data.List.Nodup
import InClusterStorage.Wal.Client.Replication

/- Whether a witness acknowledgement means that the record is replicated. The client
   learns only the buffer's head, so it needs that the buffer has everything of its
   own up to the head. The buffer accepts gaps, and the sender never goes back behind
   `nextSeqToSend`: a record that comes on `retainedRecords` after a later number has
   been sent is not sent in this session.

   Where every record is put on the list in the order of its number, everything sent
   on a connection comes after all that precedes it, and so does everything queued and
   everything committed (`witnessed_committed`). -/
namespace InClusterStorage.Wal.Client

open List Option Runs

open StreamImpl (reserve_cases accept_sublist accept_localSeq accept_witnessSeq adoptHead_spec
  raiseS3_retained raiseS3_localSeq raiseS3_witnessSeq)

/-! The buffer's head. -/

theorem le_head {committed : List ClientRecord} {r : ClientRecord} (h : r ∈ committed) :
    r.streamSeq ≤ head committed := by
  induction committed with
  | nil => simp at h
  | cons first rest ih =>
    rcases mem_cons.1 h with rfl | h
    · exact le_max_left _ _
    · exact (ih h).trans (le_max_right _ _)

theorem head_concat (committed : List ClientRecord) (r : ClientRecord) :
    head (committed ++ [r]) = max (head committed) r.streamSeq := by
  induction committed with
  | nil => simp [head]
  | cons first rest ih =>
    simp only [cons_append, head, foldr_cons] at ih ⊢
    rw [ih, Nat.max_assoc]

def Ascends (records : List ClientRecord) : Prop :=
  records.Pairwise fun a b => a.streamSeq < b.streamSeq

instance (records : List ClientRecord) : Decidable (Ascends records) :=
  inferInstanceAs (Decidable (List.Pairwise _ _))

theorem Ascends.eq {records : List ClientRecord} (h : Ascends records) {r r' : ClientRecord}
    (hr : r ∈ records) (hr' : r' ∈ records) (heq : r.streamSeq = r'.streamSeq) : r = r' := by
  have hinj : (records.map ClientRecord.streamSeq).Nodup :=
    (pairwise_map.2 h).imp fun hlt => ne_of_lt hlt
  exact inj_on_of_nodup_map hinj hr hr' heq

theorem Ascends.concat {records : List ClientRecord} (h : Ascends records) {r : ClientRecord}
    (hlt : ∀ r' ∈ records, r'.streamSeq < r.streamSeq) : Ascends (records ++ [r]) :=
  pairwise_append.2 ⟨h, pairwise_singleton _ _, fun a ha _ hb => mem_singleton.1 hb ▸ hlt a ha⟩

/-! The invariant. -/

/-- Each record on the wire comes after all that precedes it. -/
def WireOk (inserted committed wire : List ClientRecord) : Prop :=
  ∀ a r b, wire = a ++ r :: b → r ∈ inserted ∧ ∀ r' ∈ inserted, r'.streamSeq < r.streamSeq → r' ∈ committed ∨ r' ∈ a

theorem WireOk.mono {inserted committed committed' wire : List ClientRecord} (new : List ClientRecord)
    (h : WireOk inserted committed wire) (hc : ∀ r ∈ committed, r ∈ committed')
    (hnew : ∀ r ∈ new, ∀ r' ∈ inserted, r'.streamSeq < r.streamSeq) : WireOk (inserted ++ new) committed' wire := by
  intro a r b heq
  obtain ⟨hr, hbefore⟩ := h a r b heq
  refine ⟨mem_append_left _ hr, fun r' hr' hlt => ?_⟩
  rcases mem_append.1 hr' with hr' | hr'
  · exact (hbefore r' hr' hlt).imp_left (hc r')
  · have := hnew r' hr' r hr
    omega

theorem WireOk.concat {inserted committed wire : List ClientRecord} (h : WireOk inserted committed wire)
    {rec : ClientRecord} (hrec : rec ∈ inserted)
    (hbefore : ∀ r ∈ inserted, r.streamSeq < rec.streamSeq → r ∈ committed ∨ r ∈ wire) :
    WireOk inserted committed (wire ++ [rec]) := by
  intro a r b heq
  rcases eq_nil_or_concat b with rfl | ⟨b, last, rfl⟩
  · obtain ⟨rfl, hr⟩ := append_inj' heq rfl
    cases hr
    exact ⟨hrec, hbefore⟩
  · rw [concat_eq_append, ← cons_append, ← append_assoc] at heq
    exact h a r b (append_inj' heq rfl).1

namespace Replication

/-- The numbers that are assigned and not on the list yet. -/
def pending (x : Replication) : List Nat := x.appending.map fun call => call.record.streamSeq

def currentWire (x : Replication) : List ClientRecord := x.wires.headD []

/-- What the buffer has, committed or queued. -/
def arrived (x : Replication) : List ClientRecord := x.committed ++ x.incoming

/-- The session is up to `nextSeqToSend`, but for the records in `left`: what was
inserted below it is sent, and what comes later is not below it. -/
structure UpTo (x : Replication) (left : List ClientRecord) (nextSeqToSend : Nat) : Prop where
  sent : ∀ r ∈ x.inserted, r.streamSeq < nextSeqToSend → r ∈ x.arrived ∨ r ∈ x.currentWire ∨ r ∈ left
  next_le : nextSeqToSend ≤ x.c.localSeq + 1
  next_pending : ∀ q ∈ x.pending, nextSeqToSend ≤ q

/-- `HelloAck` names the buffer's head, or an earlier one. -/
structure AckOk (x : Replication) (ack : Ack) : Prop where
  witness_le : ack.witnessAckedStreamSeq ≤ head x.committed
  s3_le : ack.s3AckedStreamSeq ≤ head x.committed
  first : x.helloDone = false → ack.witnessAckedStreamSeq = head x.committed

def SessionOk (x : Replication) : Prop :=
  match x.session with
  | .down => True
  | .greeted ack => x.AckOk ack
  | .comparing ack localRec =>
    x.AckOk ack ∧ localRec ∈ x.inserted ∧ localRec.streamSeq = ack.witnessAckedStreamSeq ∧
      ack.witnessAckedStreamSeq ≤ x.c.localSeq
  | .accepted ack => ack.witnessAckedStreamSeq ≤ head x.committed ∧ x.helloDone = true
  | .replaying records nextSeqToSend =>
    x.UpTo records nextSeqToSend ∧ records.Sublist x.inserted ∧
      (∀ r ∈ records, r.streamSeq < nextSeqToSend) ∧ x.helloDone = true
  | .waiting nextSeqToSend | .sending nextSeqToSend => x.UpTo [] nextSeqToSend ∧ x.helloDone = true

structure Inv (x : Replication) : Prop where
  agree : ∀ r ∈ x.committed, ∀ r' ∈ x.inserted, r.streamSeq = r'.streamSeq → r = r'
  inserted_asc : Ascends x.inserted
  retained : x.c.retainedRecords.Sublist x.inserted
  kept : ∀ r ∈ x.inserted, r ∈ x.c.retainedRecords ∨ r ∈ x.committed
  inserted_le : ∀ r ∈ x.inserted, r.streamSeq ≤ x.c.localSeq
  assigned : ∀ q ∈ x.pending, q ≤ x.c.localSeq ∧ head x.committed < q ∧ ∀ r ∈ x.inserted, r.streamSeq < q
  before_hello : x.helloDone = false → x.appending = [] ∧ x.incoming = [] ∧ ∀ wire ∈ x.wires, wire = []
  head_le : x.helloDone = true → head x.committed ≤ x.c.localSeq
  below_head : ∀ r ∈ x.inserted, r.streamSeq ≤ head x.committed → r ∈ x.committed
  incoming : WireOk x.inserted x.committed x.incoming
  wires : ∀ wire ∈ x.wires, WireOk x.inserted x.arrived wire
  acks : ∀ ack ∈ x.acks, ack.witnessAckedStreamSeq ≤ head x.committed ∧ ack.s3AckedStreamSeq ≤ head x.committed
  witness_le : x.c.witnessSeq ≤ head x.committed
  session : x.SessionOk

/-! What the events other than the session's do to the session. -/

variable {next : Nat} {x x' : Replication} {rec : ClientRecord} {session : Session}

section

variable {new : List ClientRecord} (hin : x'.inserted = x.inserted ++ new) (hnew : ∀ r ∈ new, r.streamSeq ∈ x.pending)
  (hsent : ∀ r, r ∈ x.arrived ∨ r ∈ x.currentWire → r ∈ x'.arrived ∨ r ∈ x'.currentWire)
  (hl : x.c.localSeq ≤ x'.c.localSeq) (hp : ∀ q ∈ x'.pending, q ∈ x.pending ∨ x.c.localSeq < q)
include hin hnew hsent hl hp

theorem UpTo.mono {left : List ClientRecord} (h : x.UpTo left next) : x'.UpTo left next := by
  have hle := h.next_le
  refine ⟨fun r hr hlt => ?_, by omega, fun q hq => ?_⟩
  · rw [hin] at hr
    rcases mem_append.1 hr with hr | hr
    · rcases h.sent r hr hlt with hc | hw | hleft
      · exact (hsent r (.inl hc)).imp_right .inl
      · exact (hsent r (.inr hw)).imp_right .inl
      · exact .inr (.inr hleft)
    · have := h.next_pending _ (hnew r hr)
      omega
  · rcases hp q hq with hq | hq
    · exact h.next_pending q hq
    · omega

theorem SessionOk.mono (h : x.SessionOk) (hsession : x'.session = x.session) (hdone : x'.helloDone = x.helloDone)
    (hhead : head x.committed ≤ head x'.committed)
    (hfirst : x.helloDone = false → head x'.committed = head x.committed) : x'.SessionOk := by
  have hack : ∀ ack, x.AckOk ack → x'.AckOk ack := fun ack ha =>
    ⟨ha.witness_le.trans hhead, ha.s3_le.trans hhead, fun hd => by
      rw [hdone] at hd
      rw [hfirst hd]
      exact ha.first hd⟩
  unfold SessionOk at h ⊢
  rw [hsession]
  cases hs : x.session with
  | down => trivial
  | greeted ack => rw [hs] at h; exact hack ack h
  | comparing ack localRec =>
    rw [hs] at h
    exact ⟨hack ack h.1, hin ▸ mem_append_left _ h.2.1, h.2.2.1, h.2.2.2.trans hl⟩
  | accepted ack => rw [hs] at h; exact ⟨h.1.trans hhead, hdone ▸ h.2⟩
  | replaying records next =>
    rw [hs] at h
    exact ⟨h.1.mono hin hnew hsent hl hp, hin ▸ h.2.1.trans (sublist_append_left _ _), h.2.2.1, hdone ▸ h.2.2.2⟩
  | waiting next | sending next => rw [hs] at h; exact ⟨h.1.mono hin hnew hsent hl hp, hdone ▸ h.2⟩

end

theorem SessionOk.client (h : x.SessionOk) {c : StreamImpl} {appending : List AppendCall} {acks : List Ack}
    (hl : x.c.localSeq ≤ c.localSeq)
    (hp : ∀ q ∈ appending.map fun call => call.record.streamSeq, q ∈ x.pending ∨ x.c.localSeq < q) :
    ({ x with c, appending, acks } : Replication).SessionOk :=
  h.mono (append_nil x.inserted).symm (by simp) (fun r hr => hr) hl hp rfl rfl le_rfl fun _ => rfl

/-! The calls of `Append`. -/

section

variable (h : Inv x)
include h

theorem Inv.reserve {payload : List UInt8} {c : StreamImpl} (hdone : x.helloDone = true)
    (hr : x.c.reserve payload = some (c, rec)) : Inv { x with c, appending := x.appending ++ [⟨rec, false⟩] } := by
  obtain ⟨hseq, hlocal, -, hret, hwit⟩ := reserve_cases hr
  have hpending : ∀ q ∈ ({ x with c, appending := x.appending ++ [⟨rec, false⟩] } : Replication).pending,
      q ∈ x.pending ∨ q = x.c.localSeq + 1 := by
    intro q hq
    simp only [pending, map_append, mem_append, map_cons, map_nil, mem_singleton] at hq
    exact hq.imp_right fun hq => hq.trans hseq
  refine ⟨h.agree, h.inserted_asc, hret ▸ h.retained, hret ▸ h.kept, ?_, ?_, ?_, ?_,
    h.below_head, h.incoming, h.wires, h.acks, hwit ▸ h.witness_le, ?_⟩
  · intro r hr
    have := h.inserted_le r hr
    simp only; omega
  · intro q hq
    rcases hpending q hq with hq | rfl
    · obtain ⟨hle, hrest⟩ := h.assigned q hq
      exact ⟨by simp only; omega, hrest⟩
    · have := h.head_le hdone
      refine ⟨by simp only; omega, by simp only; omega, fun r hr => ?_⟩
      have := h.inserted_le r hr
      omega
  · intro hd
    exact absurd (hdone.symm.trans hd) (by simp)
  · intro _
    have := h.head_le hdone
    simp only; omega
  · refine h.session.client (by omega) ?_
    intro q hq
    exact (hpending q hq).imp_right fun hq => by omega

theorem Inv.store {i : Nat} {call : AppendCall}
    (hi : x.appending[i]? = some call) :
    Inv { x with appending := x.appending.set i { call with stored := true } } := by
  have hpending : ({ x with appending := x.appending.set i { call with stored := true } } :
      Replication).pending = x.pending := by
    obtain ⟨hlt, rfl⟩ := List.getElem?_eq_some_iff.1 hi
    have hset := set_getElem_self (show i < x.pending.length by simpa [pending] using hlt)
    simpa [pending, map_set] using hset
  exact { h with
    assigned := hpending ▸ h.assigned
    before_hello hd := ⟨by simp [(h.before_hello hd).1], (h.before_hello hd).2⟩
    session := h.session.client le_rfl fun q hq => .inl (hpending ▸ hq) }

theorem Inv.insert {i : Nat}
    (hi : x.appending[i]? = some ⟨rec, true⟩) (hok : x.InOrder (.insert i)) :
    Inv { x with
      c := x.c.insert rec, appending := x.appending.eraseIdx i, newRecordSignal := true
      inserted := x.inserted ++ [rec] } := by
  have hrec : rec.streamSeq ∈ x.pending :=
    mem_map.2 ⟨_, mem_of_getElem? hi, rfl⟩
  have hpending (q) (hq : q ∈ (x.appending.eraseIdx i).map (fun call => call.record.streamSeq)) :
      q ∈ x.pending ∧ rec.streamSeq < q := by
    obtain ⟨other, hother, rfl⟩ := mem_map.1 hq
    simp only [InOrder, hi] at hok
    exact ⟨mem_map_of_mem (mem_of_mem_eraseIdx hother), hok other hother⟩
  obtain ⟨hlocal, hhead, habove⟩ := h.assigned _ hrec
  refine ⟨fun r hr => ?_, h.inserted_asc.concat habove, h.retained.append (List.Sublist.refl _), ?_, ?_, ?_, ?_,
    h.head_le, ?_, ?_, ?_, h.acks, h.witness_le, ?_⟩
  · exact forall_mem_append.2 ⟨h.agree r hr, forall_mem_singleton.2 fun heq =>
      absurd heq (ne_of_lt ((le_head hr).trans_lt hhead))⟩
  · intro r hr
    rcases mem_append.1 hr with hr | hr
    · exact (h.kept r hr).imp_left (mem_append_left _)
    · exact .inl (mem_append_right _ hr)
  · exact forall_mem_append.2 ⟨h.inserted_le, forall_mem_singleton.2 hlocal⟩
  · intro q hq
    obtain ⟨hle, hlt, hall⟩ := h.assigned q (hpending q hq).1
    exact ⟨hle, hlt, forall_mem_append.2 ⟨hall, forall_mem_singleton.2 (hpending q hq).2⟩⟩
  · intro hd
    simp [(h.before_hello hd).1] at hi
  · intro r hr hle
    rcases mem_append.1 hr with hr | hr
    · exact h.below_head r hr hle
    rw [mem_singleton.1 hr] at hle
    simp only at hle
    omega
  · exact h.incoming.mono [rec] (fun r hr => hr) (forall_mem_singleton.2 habove)
  · exact fun wire hwire => (h.wires wire hwire).mono [rec] (fun r hr => hr) (forall_mem_singleton.2 habove)
  · refine h.session.mono rfl ?_ (fun r hr => hr) le_rfl (fun q hq => .inl (hpending q hq).1) rfl rfl
      le_rfl fun _ => rfl
    intro r hr
    exact mem_singleton.1 hr ▸ hrec

/-! The buffer. -/

/-- The buffer takes a record: it is queued, or has been committed before. -/
theorem Inv.deliver {i : Nat} {rest incoming : List ClientRecord} (hi : x.wires[i]? = some (rec :: rest))
    (hincoming : WireOk x.inserted x.committed incoming) (hsub : x.incoming ⊆ incoming)
    (hrec : rec ∈ x.committed ++ incoming) : Inv { x with wires := x.wires.set i rest, incoming } := by
  have hmem : rec :: rest ∈ x.wires := mem_of_getElem? hi
  have hdone : x.helloDone = true := by
    rcases hd : x.helloDone with _ | _
    · simpa using (h.before_hello hd).2.2 _ hmem
    · rfl
  have harrived : x.arrived ⊆ x.committed ++ incoming :=
    append_subset.2 ⟨subset_append_left _ _, fun _ hr => mem_append_right _ (hsub hr)⟩
  refine { h with
    before_hello hd := absurd (hdone.symm.trans hd) (by simp), incoming := hincoming, wires := ?_, session := ?_ }
  · intro wire hwire
    rcases mem_or_eq_of_mem_set hwire with hwire | rfl
    · have hmono := (h.wires wire hwire).mono [] (fun r hr => harrived hr) (by simp)
      rwa [append_nil] at hmono
    intro a r b heq
    obtain ⟨hr, hb⟩ := h.wires _ hmem (rec :: a) r b (by simp [heq])
    refine ⟨hr, fun r' hr' hlt => ?_⟩
    rcases hb r' hr' hlt with hc | hc
    · exact .inl (harrived hc)
    · rcases mem_cons.1 hc with rfl | hc
      · exact .inl hrec
      · exact .inr hc
  · refine h.session.mono (append_nil x.inserted).symm (by simp) ?_ le_rfl (fun q hq => .inl hq) rfl rfl
      le_rfl fun _ => rfl
    rintro r (hr | hr)
    · exact .inl (harrived hr)
    · rcases hw : x.wires with _ | ⟨wire, older⟩
      · simp [currentWire, hw] at hr
      · rw [hw] at hi
        simp only [currentWire, hw, headD_cons] at hr ⊢
        rcases i with _ | i
        · simp only [getElem?_cons_zero, some.injEq] at hi
          subst hi
          rcases mem_cons.1 hr with rfl | hr
          · exact .inl hrec
          · exact .inr (by simpa using hr)
        · exact .inr (by simpa using hr)

/-- A record that is committed brings the head no further than what is. -/
theorem Inv.commit {rest : List ClientRecord} (hq : x.incoming = rec :: rest) :
    Inv { x with incoming := rest, committed := x.committed ++ [rec] } := by
  obtain ⟨hrec, hbefore⟩ := h.incoming [] rec rest hq
  have hdone : x.helloDone = true := by
    rcases hd : x.helloDone with _ | _
    · simp [(h.before_hello hd).2.1] at hq
    · rfl
  have hhead := head_concat x.committed rec
  have harrived : ({ x with incoming := rest, committed := x.committed ++ [rec] } : Replication).arrived = x.arrived := by
    simp [arrived, hq]
  refine ⟨forall_mem_append.2 ⟨h.agree, forall_mem_singleton.2 fun r' hr' heq => h.inserted_asc.eq hrec hr' heq⟩,
    h.inserted_asc, h.retained, fun r hr => (h.kept r hr).imp_right (mem_append_left _), h.inserted_le,
    ?_, ?_, ?_, ?_, ?_, ?_, ?_, ?_, ?_⟩
  · intro q hq
    obtain ⟨hle, hlt, hall⟩ := h.assigned q hq
    have := hall rec hrec
    exact ⟨hle, by simp only [hhead]; omega, hall⟩
  · intro hd
    exact absurd (hdone.symm.trans hd) (by simp)
  · intro _
    have := h.head_le hdone
    have := h.inserted_le rec hrec
    simp only [hhead]; omega
  · intro r hr hle
    simp only [hhead] at hle
    rcases Nat.lt_trichotomy r.streamSeq rec.streamSeq with hlt | heq | hgt
    · exact mem_append_left _ ((hbefore r hr hlt).resolve_right (by simp))
    · rw [h.inserted_asc.eq hr hrec heq]
      exact mem_append_right _ (mem_singleton_self rec)
    · exact mem_append_left _ (h.below_head r hr (by omega))
  · intro a r b heq
    obtain ⟨hr, hb⟩ := h.incoming (rec :: a) r b (hq.trans (congrArg (rec :: ·) heq))
    refine ⟨hr, fun r' hr' hlt => ?_⟩
    rcases hb r' hr' hlt with hc | hc
    · exact .inl (mem_append_left _ hc)
    · exact (mem_cons.1 hc).imp_left fun heq => mem_append_right _ (mem_singleton.2 heq)
  · exact harrived ▸ h.wires
  · intro ack hack
    have := h.acks ack hack
    simp only [hhead]; omega
  · have := h.witness_le
    simp only [hhead]; omega
  · exact h.session.mono (append_nil x.inserted).symm (by simp) (fun r hr => harrived ▸ hr) le_rfl
      (fun q hq => .inl hq) rfl rfl (by simp only [hhead]; omega) fun hd => absurd (hdone.symm.trans hd) (by simp)

/-! The session. -/

/-- The client may forget records up to the head, and raise its watermarks to it. -/
theorem Inv.watermarks {c : StreamImpl} {s3 : Nat}
    (hret : c.retainedRecords.Sublist x.c.retainedRecords ∧
      ∀ r ∈ x.c.retainedRecords, r ∈ c.retainedRecords ∨ r.streamSeq ≤ s3)
    (hs3 : s3 ≤ head x.committed) (hlocal : x.c.localSeq ≤ c.localSeq)
    (hwit : c.witnessSeq ≤ head x.committed) : Inv { x with c } := by
  refine { h with
    retained := hret.1.trans h.retained, kept := ?_, inserted_le r hr := (h.inserted_le r hr).trans hlocal
    assigned q hq := (h.assigned q hq).imp_left (·.trans hlocal), head_le hd := (h.head_le hd).trans hlocal
    witness_le := hwit, session := h.session.client hlocal fun q hq => .inl hq }
  · intro r hr
    rcases h.kept r hr with hk | hk
    · rcases hret.2 r hk with hk | hle
      · exact .inl hk
      · exact .inr (h.below_head r hr (hle.trans hs3))
    · exact .inr hk

theorem Inv.move (signal : Bool)
    (hs : ({ x with session, newRecordSignal := signal } : Replication).SessionOk) :
    Inv { x with session, newRecordSignal := signal } :=
  { h with session := hs }

/-- The handshake: after the first one, the client's numbers are above the head. -/
theorem Inv.accept {ack : Ack} {c : StreamImpl} (hack : x.AckOk ack)
    (hret : c.retainedRecords = x.c.retainedRecords) (hlocal : x.c.localSeq ≤ c.localSeq)
    (hwit : ack.witnessAckedStreamSeq ≤ c.localSeq) : Inv (x.accept ack (c.acceptHelloAck ack).1) := by
  have hsub := accept_sublist ack c
  rw [hret] at hsub
  have hw := h.watermarks hsub hack.s3_le (by simpa using hlocal) (by simpa using hack.witness_le)
  refine { hw with
    before_hello hd := absurd hd (by simp [Replication.accept]), head_le := ?_, session := ⟨hack.witness_le, rfl⟩ }
  intro _
  show head x.committed ≤ (c.acceptHelloAck ack).1.localSeq
  rw [accept_localSeq]
  rcases hd : x.helloDone with _ | _
  · exact hack.first hd ▸ hwit
  · exact (h.head_le hd).trans hlocal

/-- The record of the client at the head is the buffer's. -/
theorem Inv.found_same {localRec : ClientRecord} {n : Nat}
    (hin : localRec ∈ x.inserted) (hseq : localRec.streamSeq = n) (hle : n ≤ head x.committed) :
    x.committed.find? (fun r => r.streamSeq = n) = some localRec := by
  have hmem : localRec ∈ x.committed := h.below_head localRec hin (hseq ▸ hle)
  cases hf : x.committed.find? (fun r => r.streamSeq = n) with
  | none => exact absurd hseq (by simpa using find?_eq_none.1 hf localRec hmem)
  | some r =>
    have hr : r.streamSeq = n := by simpa using find?_some hf
    rw [h.agree r (mem_of_find?_eq_some hf) localRec hin (hr.trans hseq.symm)]

theorem Inv.startReplay {ack : Ack} (hdone : x.helloDone = true)
    (hack : ack.witnessAckedStreamSeq ≤ head x.committed) : Inv (x.startReplay ack) := by
  unfold Replication.startReplay
  generalize hleft : (x.c.retainedRecords.filter fun r => r.streamSeq > ack.witnessAckedStreamSeq) = left
  have hsub : left.Sublist x.inserted := hleft ▸ filter_sublist.trans h.retained
  have hsent (r) (hr : r ∈ x.inserted) : r ∈ x.arrived ∨ r ∈ x.currentWire ∨ r ∈ left := by
    by_cases hle : r.streamSeq ≤ ack.witnessAckedStreamSeq
    · exact .inl (mem_append_left _ (h.below_head r hr (hle.trans hack)))
    · rcases h.kept r hr with hk | hk
      · exact .inr (.inr (hleft ▸ mem_filter.2 ⟨hk, by simpa using hle⟩))
      · exact .inl (mem_append_left _ hk)
  have hhead := h.head_le hdone
  refine h.move x.newRecordSignal ?_
  cases hlast : left.getLast? with
  | none =>
    refine ⟨⟨fun r hr _ => hsent r hr, by simp only; omega, fun q hq => ?_⟩, hsub, ?_, hdone⟩
    · have := (h.assigned q hq).2.1
      simp only; omega
    · rw [getLast?_eq_none_iff.1 hlast]
      simp
  | some last =>
    have hmem : last ∈ x.inserted := hsub.subset (mem_of_getLast? hlast)
    refine ⟨⟨fun r hr _ => hsent r hr, ?_, fun q hq => (h.assigned q hq).2.2 last hmem⟩, hsub, ?_, hdone⟩
    · have := h.inserted_le last hmem
      simp only; omega
    · intro r hr
      obtain ⟨init, hinit⟩ := getLast?_eq_some_iff.1 hlast
      have hasc := h.inserted_asc.sublist hsub
      rw [hinit] at hr hasc
      rcases mem_append.1 hr with hr | hr
      · exact Nat.lt_succ_of_lt ((pairwise_append.1 hasc).2.2 r hr last (mem_singleton_self _))
      · rw [mem_singleton.1 hr]
        exact Nat.lt_succ_self _

theorem Inv.send (hdone : x.helloDone = true) (hrec : rec ∈ x.inserted)
    (hbefore : ∀ r ∈ x.inserted, r.streamSeq < rec.streamSeq → r ∈ x.arrived ∨ r ∈ x.currentWire)
    (hs : x.send rec session = some x') (hok : x'.SessionOk) : Inv x' := by
  unfold Replication.send at hs
  split at hs
  · simp at hs
  rename_i wire older hw
  cases hs
  refine { h with
    before_hello hd := absurd (hdone.symm.trans hd) (by simp), wires := ?_, session := hok }
  intro wire' hwire
  rcases mem_cons.1 hwire with rfl | hwire
  · refine (h.wires wire (hw ▸ mem_cons_self)).concat hrec fun r hr hlt => ?_
    simpa [currentWire, hw] using hbefore r hr hlt
  · exact h.wires wire' (hw ▸ mem_cons_of_mem _ hwire)

omit h in
/-- What is sent is on the current connection. -/
theorem mem_currentWire_send
    (hs : x.send rec session = some x') :
    x'.inserted = x.inserted ∧ x'.arrived = x.arrived ∧ x'.c = x.c ∧ x'.pending = x.pending ∧
      x'.helloDone = x.helloDone ∧ x'.session = session ∧ ∀ r, r ∈ x.currentWire ∨ r = rec → r ∈ x'.currentWire := by
  unfold send at hs
  split at hs
  · simp at hs
  rename_i wire older hw
  cases hs
  refine ⟨rfl, rfl, rfl, rfl, rfl, rfl, ?_⟩
  rintro r hr
  simpa [currentWire, hw] using hr

omit h in
theorem UpTo.send {left : List ClientRecord} (hs : x.send rec session = some x')
    (hle : next ≤ x.c.localSeq + 1) (hpending : ∀ q ∈ x.pending, next ≤ q)
    (hsent : ∀ r ∈ x.inserted, r.streamSeq < next →
      r ∈ x.arrived ∨ r ∈ x.currentWire ∨ r = rec ∨ r ∈ left) : x'.UpTo left next := by
  obtain ⟨hin, hc, hi, hp, -, -, hwire⟩ := mem_currentWire_send hs
  refine ⟨fun r hr hlt => ?_, hi ▸ hle, hp ▸ hpending⟩
  rw [hin] at hr
  rw [hc]
  rcases hsent r hr hlt with h | h | h | h
  · exact .inl h
  · exact .inr (.inl (hwire r (.inl h)))
  · exact .inr (.inl (hwire r (.inr h)))
  · exact .inr (.inr h)

theorem Inv.replay {rest : List ClientRecord} (hup : x.UpTo (rec :: rest) next) (hsub : (rec :: rest).Sublist x.inserted)
    (hlt : ∀ r ∈ rec :: rest, r.streamSeq < next) (hdone : x.helloDone = true)
    (hs : x.send rec (.replaying rest next) = some x') : Inv x' := by
  refine h.send hdone (hsub.subset mem_cons_self) ?_ hs ?_
  · intro r hr hbelow
    rcases hup.sent r hr (hbelow.trans (hlt rec mem_cons_self)) with hc | hw | hleft
    · exact .inl hc
    · exact .inr hw
    · -- what is left to replay is not below `rec`
      have hasc := pairwise_cons.1 (h.inserted_asc.sublist hsub)
      rcases mem_cons.1 hleft with rfl | hleft
      · omega
      · have := hasc.1 r hleft
        omega
  · obtain ⟨hin, -, -, -, hd, hsess, -⟩ := mem_currentWire_send hs
    unfold SessionOk
    rw [hsess]
    refine ⟨UpTo.send hs hup.next_le hup.next_pending ?_,
      hin ▸ (sublist_cons_self rec rest).trans hsub, fun r hr => hlt r (mem_cons_of_mem _ hr),
      hd.trans hdone⟩
    intro r hr hb
    simpa using hup.sent r hr hb

theorem Inv.sendNext (hup : x.UpTo [] next) (hdone : x.helloDone = true)
    (hfind : x.c.retainedRecords.find? (fun r => r.streamSeq ≥ next) = some rec)
    (hs : x.send rec (.sending (rec.streamSeq + 1)) = some x') : Inv x' := by
  have hrec : rec ∈ x.inserted := h.retained.subset (mem_of_find?_eq_some hfind)
  -- the records between `next` and `rec` are no longer retained
  have hbefore (r) (hr : r ∈ x.inserted) (hbelow : r.streamSeq < rec.streamSeq) : r ∈ x.arrived ∨ r ∈ x.currentWire := by
    by_cases hn : r.streamSeq < next
    · rcases hup.sent r hr hn with hc | hw | hleft
      · exact .inl hc
      · exact .inr hw
      · simp at hleft
    · rcases h.kept r hr with hk | hc
      · obtain ⟨-, as, bs, hsplit, has⟩ := find?_eq_some_iff_append.1 hfind
        have hasc := h.inserted_asc.sublist h.retained
        rw [hsplit] at hk hasc
        rcases mem_append.1 hk with hk | hk
        · exact absurd (has r hk) (by simpa using Nat.le_of_not_lt hn)
        · have hasc := pairwise_cons.1 (pairwise_append.1 hasc).2.1
          rcases mem_cons.1 hk with rfl | hk
          · omega
          · have := hasc.1 r hk
            omega
      · exact .inl (mem_append_left _ hc)
  refine h.send hdone hrec hbefore hs ?_
  obtain ⟨-, -, -, -, hd, hsess, -⟩ := mem_currentWire_send hs
  unfold SessionOk
  rw [hsess]
  refine ⟨UpTo.send hs (Nat.succ_le_succ (h.inserted_le rec hrec))
    (fun q hq => (h.assigned q hq).2.2 rec hrec) ?_, hd.trans hdone⟩
  intro r hr hlt
  rcases Nat.lt_or_eq_of_le (Nat.le_of_lt_succ hlt) with hlt | heq
  · exact (hbefore r hr hlt).imp_right .inl
  · exact .inr (.inr (.inl (h.inserted_asc.eq hr hrec heq)))

theorem Inv.stepSession {found truncateOk : Bool} (hs : x.stepSession found truncateOk = some x') : Inv x' := by
  have hok := h.session
  unfold SessionOk at hok
  unfold Replication.stepSession at hs
  split at hs <;> rename_i hsess <;> rw [hsess] at hok
  · simp at hs
  · rename_i ack
    split at hs <;> cases hs
    · obtain ⟨hret, -, hlocal, hwit⟩ := adoptHead_spec ack.witnessAckedStreamSeq x.c
      exact h.accept hok hret hlocal hwit
    rename_i localRec hrec
    unfold StreamImpl.localRecAtHead at hrec
    split at hrec
    · rename_i hcond
      refine h.move x.newRecordSignal ⟨⟨hok.1, hok.2, hok.3⟩,
        h.retained.subset (mem_of_find?_eq_some hrec), ?_, le_of_lt hcond.2⟩
      simpa using find?_some hrec
    · simp at hrec
  · rename_i ack localRec
    obtain ⟨hack, hin, hseq, hle⟩ := hok
    rw [h.found_same hin hseq hack.witness_le] at hs
    rcases found with _ | _ <;>
      simp only [Bool.false_eq_true, if_false, if_true, map_some, StreamImpl.reconcile, some.injEq] at hs <;> subst hs
    · exact h.move x.newRecordSignal trivial
    · exact h.accept hack rfl le_rfl hle
  · cases hs
    exact h.startReplay hok.2 hok.1
  · cases hs
    exact h.move x.newRecordSignal ⟨⟨hok.1.1, hok.1.2, hok.1.3⟩, hok.2.2.2⟩
  · exact h.replay hok.1 hok.2.1 hok.2.2.1 hok.2.2.2 hs
  · split at hs
    · cases hs
      exact h.move false ⟨⟨hok.1.1, hok.1.2, hok.1.3⟩, hok.2⟩
    · simp at hs
  · split at hs
    · cases hs
      exact h.move x.newRecordSignal ⟨⟨hok.1.1, hok.1.2, hok.1.3⟩, hok.2⟩
    · rename_i hfind
      exact h.sendNext hok.1 hok.2 hfind hs

theorem Inv.step {e : Event} (hok : x.InOrder e) (hs : x.step e = some x') : Inv x' := by
  cases e with simp only [Replication.step] at hs
  | reserve payload =>
    split at hs
    · rename_i hdone
      split at hs <;> cases hs
      rename_i hr
      exact h.reserve hdone hr
    · simp at hs
  | store i =>
    split at hs <;> cases hs
    rename_i hi
    exact h.store hi
  | insert i =>
    split at hs <;> cases hs
    rename_i hi
    exact h.insert hi hok
  | connect s3 =>
    split at hs <;> cases hs
    rename_i hcond
    have hempty : WireOk x.inserted x.arrived [] := by
      intro a r b heq
      simp at heq
    exact { h with
      before_hello hd := (h.before_hello hd).imp_right fun hb => ⟨hb.1, forall_mem_cons.2 ⟨rfl, hb.2⟩⟩
      wires := forall_mem_cons.2 ⟨hempty, h.wires⟩
      session := ⟨le_rfl, hcond.2.2, fun _ => rfl⟩ }
  | session found truncateOk => exact h.stepSession hs
  | disconnect =>
    cases hs
    exact h.move x.newRecordSignal trivial
  | deliver i queued =>
    split at hs
    · rename_i rec rest hi
      obtain ⟨hrec, hbefore⟩ := h.wires _ (mem_of_getElem? hi) [] rec rest rfl
      split_ifs at hs with hqueued hle <;> cases hs
      · refine h.deliver hi (h.incoming.concat hrec fun r hr hlt => ?_) (subset_append_left _ _) (by simp)
        simpa [arrived] using hbefore r hr hlt
      · exact h.deliver hi h.incoming (fun _ hr => hr) (mem_append_left _ (h.below_head rec hrec hle))
    · cases hs
  | commit =>
    split at hs <;> cases hs
    rename_i hq
    exact h.commit hq
  | ack s3 =>
    split at hs <;> cases hs
    rename_i hle
    refine { h with acks := ?_, session := h.session.client le_rfl fun q hq => .inl hq }
    exact forall_mem_append.2 ⟨h.acks, forall_mem_singleton.2 ⟨le_rfl, hle⟩⟩
  | recvAck i =>
    split at hs <;> cases hs
    rename_i ack hi
    obtain ⟨hwit, hs3⟩ := h.acks ack (mem_of_getElem? hi)
    have hw : Inv { x with c := (x.c.handleAck ack).1 } := by
      refine h.watermarks (raiseS3_retained ack.s3AckedStreamSeq _) hs3 ?_ ?_
      · exact (StreamImpl.handleAck_localSeq ack x.c).ge
      · refine (raiseS3_witnessSeq _ _).trans_le ?_
        have := h.witness_le
        split <;> omega
    exact { hw with
      acks ack hack := hw.acks ack (mem_of_mem_eraseIdx hack), session := hw.session.client le_rfl fun q hq => .inl hq }

end

/-! Runs. -/

/-- A client that has just been opened, with what it recovered, and the buffer: what
they both have a number for up to the buffer's head is the same record. -/
structure IsStart (x : Replication) : Prop where
  appending : x.appending = []
  session : x.session = .down
  wires : x.wires = []
  incoming : x.incoming = []
  acks : x.acks = []
  helloDone : x.helloDone = false
  witnessSeq : x.c.witnessSeq = 0
  recovered : x.inserted = x.c.retainedRecords
  recovered_asc : Ascends x.inserted
  recovered_le : ∀ r ∈ x.inserted, r.streamSeq ≤ x.c.localSeq
  committed_asc : Ascends x.committed
  agree : ∀ r ∈ x.inserted, r.streamSeq ≤ head x.committed → r ∈ x.committed

theorem IsStart.inv (h : IsStart x) : Inv x where
  agree r hr r' hr' heq := h.committed_asc.eq hr (h.agree r' hr' (heq ▸ le_head hr)) heq
  inserted_asc := h.recovered_asc
  retained := h.recovered ▸ List.Sublist.refl _
  kept r hr := .inl (h.recovered ▸ hr)
  inserted_le := h.recovered_le
  assigned := by simp [pending, h.appending]
  before_hello _ := ⟨h.appending, h.incoming, by simp [h.wires]⟩
  head_le hd := absurd (h.helloDone.symm.trans hd) (by simp)
  below_head := h.agree
  incoming := by simp [WireOk, h.incoming]
  wires := by simp [h.wires]
  acks := by simp [h.acks]
  witness_le := by simp [h.witnessSeq]
  session := by simp [SessionOk, h.session]

/-- **A witnessed record is replicated**, in every run in which `Append` calls put
their records on the list in the order of their numbers: whatever the client has
inserted up to its `witnessSeq`, the buffer has committed. -/
theorem witnessed_committed {x : Replication} (h : Reach IsStart step InOrder x) :
    ∀ r ∈ x.inserted, r.streamSeq ≤ x.c.witnessSeq → r ∈ x.committed := by
  have hinv : Inv x := h.inv (fun _ hi => hi.inv) fun _ _ _ hi hok hs => hi.step hok hs
  intro r hr hle
  exact hinv.below_head r hr (hle.trans hinv.witness_le)

/-- A new stream, with room for two small records, and an empty buffer. -/
def fresh : Replication := { c := { maxRetainedBytes := 1000 } }

theorem fresh_isStart : IsStart fresh where
  appending := rfl
  session := rfl
  wires := rfl
  incoming := rfl
  acks := rfl
  helloDone := rfl
  witnessSeq := rfl
  recovered := rfl
  recovered_asc := by decide
  recovered_le := by decide
  committed_asc := by decide
  agree := by decide

/-- The handshake of a new stream, up to where the session waits for records. -/
def handshake : List Event := [.connect 0, .session true true, .session true true, .session true true]

/-- Two calls with the numbers 1 and 2 that return in that order. -/
def inOrderRun : List Event :=
  handshake ++ [.reserve [1], .reserve [2], .store 1, .store 0, .insert 0, .session true true,
    .session true true, .insert 0, .session true true, .deliver 0 true, .commit, .deliver 0 true, .commit,
    .ack 0, .recvAck 0]

theorem witnessed_committed_inOrder :
    ∃ x, exec step fresh inOrderRun = some x ∧ x.c.witnessSeq = 2 ∧
      x.inserted.map ClientRecord.streamSeq = [1, 2] ∧
      ∀ r ∈ x.inserted, r.streamSeq ≤ x.c.witnessSeq → r ∈ x.committed :=
  ⟨(exec step fresh inOrderRun).get (by decide), (some_get _).symm, by decide, by decide,
    witnessed_committed (Reach.exec (.start fresh_isStart) (by decide) (some_get _).symm)⟩

/-- The call with the number 2 is faster: its record is sent before record 1 is on the
list, and `nextSeqToSend` is then 3. -/
def overtakenRun : List Event :=
  handshake ++ [.reserve [1], .reserve [2], .store 0, .store 1, .insert 1, .session true true,
    .session true true, .insert 0, .deliver 0 true, .commit, .ack 0, .recvAck 0, .session true true,
    .session true true, .session true true]

/-- **A record can be overtaken**: both calls have returned, the client's `witnessSeq`
is 2, the sender has found nothing more to send, and the buffer has never got record 1. -/
theorem witnessed_overtaken :
    ∃ x, Reach IsStart step always x ∧ x.appending = [] ∧ x.c.witnessSeq = 2 ∧
      x.session = .waiting 3 ∧ x.newRecordSignal = false ∧ ∃ r ∈ x.inserted, r.streamSeq = 1 ∧ r ∉ x.committed :=
  ⟨(exec step fresh overtakenRun).get (by decide),
    Reach.of_exec fresh_isStart (some_get _).symm, by decide, by decide, by decide, by decide,
    { streamID := 0, streamSeq := 1, payload := [1] }, by decide, rfl, by decide⟩

/-- **Replication loses nothing.** Where calls insert in the order of their numbers, the client
retains what the buffer has not committed, and what the buffer has committed under the number of
an inserted record is that record, however often. -/
theorem nothing_lost {x : Replication} (h : Reach IsStart step InOrder x) :
    (∀ r ∈ x.inserted, r ∈ x.c.retainedRecords ∨ r ∈ x.committed) ∧ x.c.retainedRecords.Sublist x.inserted ∧
      ∀ r ∈ x.committed, ∀ r' ∈ x.inserted, r.streamSeq = r'.streamSeq → r = r' := by
  have hinv : Inv x := h.inv (fun _ hi => hi.inv) fun _ _ _ hi hok hs => hi.step hok hs
  exact ⟨hinv.kept, hinv.retained, hinv.agree⟩

/-- A record is sent again on a second connection while its first copy is queued. -/
def sentTwice : List Event :=
  handshake ++ [.reserve [1], .store 0, .insert 0, .session true true, .session true true, .deliver 0 true,
    .disconnect, .connect 0, .session true true, .session true true, .session true true, .deliver 0 true,
    .commit, .commit]

theorem nothing_lost_twice :
    ∃ x, exec step fresh sentTwice = some x ∧ x.committed.map ClientRecord.streamSeq = [1, 1] ∧
      ∀ r ∈ x.committed, ∀ r' ∈ x.inserted, r.streamSeq = r'.streamSeq → r = r' :=
  ⟨_, (some_get (by decide)).symm, by decide, (nothing_lost (Reach.exec (.start fresh_isStart) (by decide)
    (some_get (by decide)).symm)).2.2⟩

end Replication

end InClusterStorage.Wal.Client
