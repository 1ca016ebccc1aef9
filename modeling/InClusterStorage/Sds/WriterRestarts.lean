import Mathlib.Tactic
import InClusterStorage.Lib.Runs
import InClusterStorage.Lib.TxLog

/- Transactions of successive writers on one stream.

   `Begin` counts from one in every `NewWriter`, a transaction appends its operations at once, and a
   reader groups them by the number of the transaction only. What a transaction left behind without
   a commit is returned with the next commit under its number. -/
namespace InClusterStorage.Sds

open Table Option

open TxLog (Reader Record)
open Runs (Allowed)

variable {α : Type*}

inductive WriterEvent (α : Type*) where
  | newWriter
  | begin
  | write (tx : Nat) (change : α)
  | autocommit (change : α)
  | commit (tx : Nat)
  /-- the transaction ends without a commit -/
  | abandon (tx : Nat)

/-- A stream, its writer and a reader that has read all of it. -/
structure WrittenStream (α : Type*) where
  nextTxID : Nat := 0
  /-- the open transactions of the writer with the operations they appended -/
  live : AList fun _ : Nat => List (Nat × α) := ∅
  /-- the operations under a number that no commit followed and whose transaction is over -/
  left : Nat → List (Nat × α) := fun _ => []
  seq : Nat := 0
  reader : Reader α := .empty

namespace WrittenStream

def appended (s : WrittenStream α) (record : Record α Unit) : WrittenStream α :=
  { s with seq := s.seq + 1, reader := (s.reader.feed (s.seq + 1) record).1 }

def step (s : WrittenStream α) : WriterEvent α → Option (WrittenStream α)
  | .newWriter => some { s with nextTxID := 0, live := ∅, left := fun tx => s.left tx ++ (s.live.lookup tx).getD [] }
  | .begin => some { s with nextTxID := s.nextTxID + 1, live := s.live.insert (s.nextTxID + 1) [] }
  | .write tx c => (s.live.lookup tx).map fun own =>
    { s.appended (.op tx c) with live := s.live.insert tx (own ++ [(s.seq + 1, c)]) }
  | .autocommit c => some (s.appended (.op 0 c))
  | .commit tx => (s.live.lookup tx).map fun _ =>
    { s.appended (.commit tx) with live := s.live.erase tx, left := Function.update s.left tx [] }
  | .abandon tx => (s.live.lookup tx).map fun own =>
    { s with live := s.live.erase tx, left := Function.update s.left tx (s.left tx ++ own) }

/-- A commit returns the operations of its transaction, an operation of a transaction nothing. -/
def Atomic (s : WrittenStream α) : WriterEvent α → Prop
  | .write tx c => (s.reader.feed (s.seq + 1) (.op tx c : Record α Unit)).2 = []
  | .autocommit c => (s.reader.feed (s.seq + 1) (.op 0 c : Record α Unit)).2 = [(s.seq + 1, c)]
  | .commit tx => (s.reader.feed (s.seq + 1) (.commit tx : Record α Unit)).2 = (s.live.lookup tx).getD []
  | _ => True

/-- A commit whose number has nothing left over. -/
def NothingLeft (s : WrittenStream α) : WriterEvent α → Prop
  | .commit tx => s.left tx = []
  | _ => True

structure Grouped (s : WrittenStream α) : Prop where
  held : ∀ tx, (s.reader.pending.lookup tx).getD [] = s.left tx ++ (s.live.lookup tx).getD []
  begun : ∀ tx, (s.live.lookup tx).isSome → 0 < tx ∧ tx ≤ s.nextTxID

theorem Grouped.step {s s' : WrittenStream α} {e : WriterEvent α} (h : s.Grouped) (hs : s.step e = some s') :
    s'.Grouped ∧ (s.Atomic e ↔ s.NothingLeft e) := by
  have hnew : s.live.lookup (s.nextTxID + 1) = none := by
    by_contra hsome
    exact absurd (h.begun _ (isSome_iff_ne_none.2 hsome)).2 (by omega)
  have hheld := h.held
  have hbegun := h.begun
  cases e with
  | newWriter =>
    cases hs
    exact ⟨⟨by simp [hheld], by simp⟩, Iff.rfl⟩
  | begin =>
    cases hs
    refine ⟨⟨fun tx => ?_, fun tx htx => ?_⟩, Iff.rfl⟩
    · obtain rfl | heq := eq_or_ne tx (s.nextTxID + 1)
      · simp [hheld, hnew]
      · simp [hheld, heq]
    · grind [lookup_insert]
  | autocommit c =>
    cases hs
    exact ⟨⟨by simpa [appended, Reader.feed] using hheld, hbegun⟩, by simp [Atomic, NothingLeft, Reader.feed]⟩
  | write tx c =>
    obtain ⟨own, hown, rfl⟩ := map_eq_some_iff.1 hs
    have htx := hbegun tx (by simp [hown])
    have hpos : tx ≠ 0 := by omega
    refine ⟨⟨fun tx' => ?_, fun tx' htx' => ?_⟩, by simp [Atomic, NothingLeft, Reader.feed, hpos]⟩
    · simp only [appended, Reader.feed, if_neg hpos, lookup_insert]
      split <;> simp_all
    · grind [lookup_insert, appended]
  | commit tx =>
    obtain ⟨own, hown, rfl⟩ := map_eq_some_iff.1 hs
    refine ⟨⟨fun tx' => ?_, fun tx' htx' => ?_⟩, by simp [Atomic, NothingLeft, Reader.feed, hheld]⟩
    · simp only [appended, Reader.feed, lookup_erase, Function.update_apply]
      split <;> simp_all
    · grind [lookup_erase, appended]
  | abandon tx =>
    obtain ⟨own, hown, rfl⟩ := map_eq_some_iff.1 hs
    refine ⟨⟨fun tx' => ?_, fun tx' htx' => ?_⟩, Iff.rfl⟩
    · obtain rfl | heq := eq_or_ne tx' tx
      · simp [hheld, hown]
      · simp [hheld, heq]
    · grind [lookup_erase]

/-- **Transactions across restarts are atomic** exactly where no commit is written under a number
for which a transaction has left operations behind. -/
theorem atomic_iff_nothing_left (es : List (WriterEvent α)) :
    Allowed step Atomic ({} : WrittenStream α) es ↔ Allowed step NothingLeft {} es :=
  Runs.allowed_iff (I := Grouped) (fun _ _ _ h hs => h.step hs) es ⟨fun _ => rfl, by simp⟩

/-- The first writer stops after one operation, and the first transaction of the next one commits it. -/
theorem abandoned_operation_committed :
    let es : List (WriterEvent Nat) := [.begin, .write 1 10, .newWriter, .begin, .write 1 20]
    ∃ s, Runs.exec step {} es = some s ∧ s.live.lookup 1 = some [(2, 20)] ∧
      (s.reader.feed 3 (.commit 1 : Record Nat Unit)).2 = [(1, 10), (2, 20)] ∧
      ¬ Allowed step Atomic {} (es ++ [.commit 1]) := by
  refine ⟨_, rfl, rfl, rfl, ?_⟩
  rintro ⟨-, -, -, -, -, h, -⟩
  exact absurd h (by decide : [(1, 10), (2, 20)] ≠ [(2, 20)])

/-- **A reader holds what is not committed.** In every run, what is pending for a number is what
transactions have left behind under it and what the one in progress has written, in order. -/
theorem operations_held (es : List (WriterEvent α)) : Runs.Throughout step
    (fun s => ∀ tx, (s.reader.pending.lookup tx).getD [] = s.left tx ++ (s.live.lookup tx).getD [])
    ({} : WrittenStream α) es :=
  Runs.throughout_of_inv (I := Grouped) (fun _ h => h.held) (fun _ _ _ h hs => (h.step hs).1) ⟨fun _ => rfl, by simp⟩ es

end WrittenStream

end InClusterStorage.Sds
