import Mathlib.Tactic
import InClusterStorage.Lib.Runs
import InClusterStorage.Wal.Client.Stream

/- Concurrent calls of `Append` on one stream. A call takes its number under the mutex, writes
   its record without it, and takes the mutex again to give the number back where the write
   failed. A write that fails stores nothing here. -/
namespace InClusterStorage.Wal.Client

open Runs Function

inductive AppendPhase where
  /-- before `store.Append` -/
  | writing
  /-- before the number is given back -/
  | failed
  /-- stored, and the number is returned -/
  | returned
  deriving DecidableEq, Repr

structure Appending where
  record : ClientRecord
  phase : AppendPhase
  deriving DecidableEq, Repr

structure Appends where
  impl : StreamImpl
  /-- the records that were in the segment store before -/
  recovered : List ClientRecord := []
  calls : Nat → Option Appending := fun _ => none

inductive AppendEvent where
  | reserve (id : Nat) (payload : List UInt8)
  | write (id : Nat) (ok : Bool)
  | rollback (id : Nat)
  deriving DecidableEq, Repr

namespace Appends

/-- The call is now as given. -/
def set (s : Appends) (id : Nat) (call : Option Appending) : Appends :=
  { s with calls := fun i => if i = id then call else s.calls i }

def step (s : Appends) : AppendEvent → Option Appends
  | .reserve id payload =>
    if s.calls id = none then
      (s.impl.reserve payload).map fun r => { s with impl := r.1 }.set id (some ⟨r.2, .writing⟩)
    else none
  | .write id ok =>
    match s.calls id with
    | some ⟨rec, .writing⟩ =>
      some (if ok then { s with impl := s.impl.insert rec }.set id (some ⟨rec, .returned⟩)
        else s.set id (some ⟨rec, .failed⟩))
    | _ => none
  | .rollback id =>
    match s.calls id with
    | some ⟨rec, .failed⟩ => some ({ s with impl := s.impl.unreserve rec }.set id none)
    | _ => none

/-- The segment store has the record. -/
def Stored (s : Appends) (r : ClientRecord) : Prop := r ∈ s.recovered ∨ ∃ i, s.calls i = some ⟨r, .returned⟩

/-- No two calls have returned one number, and no two records are stored under one. -/
def UniqueNumbers (s : Appends) : Prop :=
  (∀ i j a b, s.calls i = some a → s.calls j = some b → a.phase = .returned → b.phase = .returned →
    a.record.streamSeq = b.record.streamSeq → i = j) ∧
  ∀ r r', s.Stored r → s.Stored r' → r.streamSeq = r'.streamSeq → r = r'

/-- A number is given back only while it is the last one taken. -/
def LastTaken (s : Appends) (e : AppendEvent) : Prop :=
  match e with
  | .rollback id => ∀ a ∈ s.calls id, a.record.streamSeq = s.impl.localSeq
  | _ => True

instance (s : Appends) : ∀ e, Decidable (s.LastTaken e)
  | .rollback id => inferInstanceAs (Decidable (∀ a ∈ s.calls id, _))
  | .reserve _ _ | .write _ _ => .isTrue trivial

def number (s : Appends) (i : Nat) : Option Nat := (s.calls i).map (·.record.streamSeq)

/-- The numbers of calls, of the last one taken and of the records from before. -/
structure Numbered (number : Nat → Option Nat) (localSeq : Nat) (recovered : List ClientRecord) : Prop where
  le : ∀ i n, number i = some n → n ≤ localSeq
  distinct : ∀ i j n, number i = some n → number j = some n → i = j
  above : ∀ i n, number i = some n → ∀ r ∈ recovered, r.streamSeq < n
  recovered : ∀ r ∈ recovered, r.streamSeq ≤ localSeq

namespace Numbered

variable {number : Nat → Option Nat} {localSeq : Nat} {recovered : List ClientRecord}

theorem take (h : Numbered number localSeq recovered) (id : Nat) :
    Numbered (update number id (some (localSeq + 1))) (localSeq + 1) recovered := by
  have hnumber (i n) (hn : update number id (some (localSeq + 1)) i = some n) :
      i = id ∧ n = localSeq + 1 ∨ number i = some n ∧ n ≤ localSeq := by
    rw [update_apply] at hn
    split_ifs at hn with hi
    · exact .inl ⟨hi, (Option.some.inj hn).symm⟩
    · exact .inr ⟨hn, h.le i n hn⟩
  refine ⟨fun i n hn => ?_, fun i j n hi hj => ?_, fun i n hn r hr => ?_, fun r hr => Nat.le_succ_of_le (h.recovered r hr)⟩
  · obtain ⟨-, rfl⟩ | ⟨-, hle⟩ := hnumber i n hn <;> omega
  · obtain ⟨rfl, hi⟩ | ⟨hi, hle⟩ := hnumber i n hi <;> obtain ⟨rfl, hj⟩ | ⟨hj, hle'⟩ := hnumber j n hj
    · rfl
    · omega
    · omega
    · exact h.distinct i j n hi hj
  · obtain ⟨-, rfl⟩ | ⟨hold, -⟩ := hnumber i n hn
    · exact Nat.lt_succ_of_le (h.recovered r hr)
    · exact h.above i n hold r hr

/-- Below the last number are those of the other calls, and of the records from before. -/
theorem giveBack (h : Numbered number localSeq recovered) {id : Nat} (hid : number id = some localSeq) :
    Numbered (update number id none) (localSeq - 1) recovered := by
  have hnumber (i n) (hn : update number id none i = some n) : i ≠ id ∧ number i = some n := by
    rw [update_apply] at hn
    split_ifs at hn with hi
    exact ⟨hi, hn⟩
  refine ⟨fun i n hn => ?_, fun i j n hi hj => h.distinct i j n (hnumber i n hi).2 (hnumber j n hj).2,
    fun i n hn => h.above i n (hnumber i n hn).2, fun r hr => Nat.le_sub_one_of_lt (h.above id _ hid r hr)⟩
  obtain ⟨hne, hn⟩ := hnumber i n hn
  refine Nat.le_sub_one_of_lt (lt_of_le_of_ne (h.le i n hn) ?_)
  rintro rfl
  exact hne (h.distinct i id n hn hid)

end Numbered

section
variable {s s' : Appends}

theorem number_set (s : Appends) (id : Nat) (c : Option Appending) :
    (s.set id c).number = update s.number id (c.map (·.record.streamSeq)) := by
  funext i
  rw [update_apply, number, set, apply_ite (Option.map _)]
  rfl

theorem number_eq {id : Nat} {call : Appending} (h : s.calls id = some call) :
    s.number id = some call.record.streamSeq := by
  rw [number, h]
  rfl

theorem numbered_step {e : AppendEvent} (h : Numbered s.number s.impl.localSeq s.recovered) (hok : s.LastTaken e)
    (hs : s.step e = some s') : Numbered s'.number s'.impl.localSeq s'.recovered ∧ s'.recovered = s.recovered := by
  cases e with
  | reserve id payload =>
    simp only [step, Option.ite_none_right_eq_some, Option.map_eq_some_iff] at hs
    obtain ⟨-, r, hr, rfl⟩ := hs
    unfold StreamImpl.reserve at hr
    split_ifs at hr
    cases hr
    refine ⟨?_, rfl⟩
    rw [number_set]
    exact h.take id
  | write id ok =>
    simp only [step] at hs
    split at hs <;> cases hs
    next rec hcall =>
    -- the call keeps its number
    have hsame : update s.number id (some rec.streamSeq) = s.number := by
      rw [update_eq_self_iff, number_eq hcall]
    split_ifs <;> refine ⟨?_, rfl⟩ <;> rw [number_set] <;> exact hsame.symm ▸ h
  | rollback id =>
    simp only [step] at hs
    split at hs <;> cases hs
    next rec hcall =>
    refine ⟨?_, rfl⟩
    rw [number_set]
    exact h.giveBack (by rw [number_eq hcall, hok _ hcall])

theorem unique_of_numbered (h : Numbered s.number s.impl.localSeq s.recovered)
    (honce : ∀ r ∈ s.recovered, ∀ r' ∈ s.recovered, r.streamSeq = r'.streamSeq → r = r') : s.UniqueNumbers := by
  refine ⟨fun i j a b ha hb _ _ heq => h.distinct i j _ (number_eq ha) (heq ▸ number_eq hb), fun r r' hr hr' heq => ?_⟩
  obtain hr | ⟨i, hi⟩ := hr <;> obtain hr' | ⟨j, hj⟩ := hr'
  · exact honce r hr r' hr' heq
  · exact absurd heq (Nat.ne_of_lt (h.above j _ (number_eq hj) r hr))
  · exact absurd heq.symm (Nat.ne_of_lt (h.above i _ (number_eq hi) r' hr'))
  · obtain rfl := h.distinct i j _ (number_eq hi) (heq ▸ number_eq hj)
    cases hi.symm.trans hj
    rfl

end

/-- **The numbers that calls return are distinct, and so are those of the stored records**, in every
run in which a number is given back only while it is the last one taken. -/
theorem numbers_unique (impl : StreamImpl) (recovered : List ClientRecord)
    (hle : ∀ r ∈ recovered, r.streamSeq ≤ impl.localSeq)
    (honce : ∀ r ∈ recovered, ∀ r' ∈ recovered, r.streamSeq = r'.streamSeq → r = r') (es : List AppendEvent)
    (h : Allowed step LastTaken { impl, recovered } es) : Throughout step UniqueNumbers { impl, recovered } es :=
  h.throughout (I := fun s => Numbered s.number s.impl.localSeq s.recovered ∧ s.recovered = recovered)
    (fun _ hi => unique_of_numbered hi.1 (hi.2 ▸ honce))
    (fun _ _ _ ⟨hn, hr⟩ hok hs => ⟨(numbered_step hn hok hs).1, (numbered_step hn hok hs).2.trans hr⟩)
    ⟨⟨nofun, nofun, nofun, hle⟩, rfl⟩

theorem failed_number_is_reused :
    let s : Appends := { impl := { maxRetainedBytes := 1000, localSeq := 1 }, recovered := [⟨0, 1, [9]⟩] }
    let es : List AppendEvent := [.reserve 0 [1], .write 0 false, .rollback 0, .reserve 1 [2], .write 1 true]
    Allowed step LastTaken s es ∧ Throughout step UniqueNumbers s es := by
  intro s es
  have hok : Allowed step LastTaken s es := by decide +kernel
  exact ⟨hok, numbers_unique _ _ (by decide) (by decide) es hok⟩

/-- The first of two calls fails after the second one has returned its number; a third call takes
that number again. -/
theorem number_returned_twice :
    (exec step { impl := { maxRetainedBytes := 1000 } } [.reserve 0 [1], .reserve 1 [2], .write 0 false, .write 1 true,
      .rollback 0, .reserve 2 [3], .write 2 true]).map (fun s => (s.calls 1, s.calls 2)) =
    some (some ⟨⟨0, 2, [2]⟩, .returned⟩, some ⟨⟨0, 2, [3]⟩, .returned⟩) := by decide +kernel

end Appends

end InClusterStorage.Wal.Client
