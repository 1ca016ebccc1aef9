import InClusterStorage.Lib.Table

/- A log of transactions and its replay.

   A transaction writes one record per change and then a commit record with its number;
   marks are records that a replay treats on its own. `Reader.feed` holds the changes of a
   transaction back until its commit. `Replay.run` applies the committed changes to a
   state and hands the marks over, which may fail, or replace the state and with it what
   is held back.

   Where every transaction is written in one piece (`block`), a replay that starts between
   two of them has nothing held back between any two of them (`Replay.run_block`). -/
namespace TxLog

open List Option AList

variable {α μ σ : Type*}

inductive Record (α μ : Type*) where
  | op (tx : Nat) (change : α)
  | commit (tx : Nat)
  | mark (m : μ)
  | other
  deriving DecidableEq

/-- The changes held back, each with the number of its record. -/
structure Reader (α : Type*) where
  pending : AList fun _ : Nat => List (Nat × α)

/-- Nothing is held back. -/
def Reader.empty : Reader α := ⟨∅⟩

/-- The changes that the record commits. A change of transaction 0 is committed at once. -/
def Reader.feed (r : Reader α) (seq : Nat) : Record α μ → Reader α × List (Nat × α)
  | .op tx c =>
    if tx = 0 then (r, [(seq, c)])
    else (⟨r.pending.insert tx ((r.pending.lookup tx).getD [] ++ [(seq, c)])⟩, [])
  | .commit tx => (⟨r.pending.erase tx⟩, (r.pending.lookup tx).getD [])
  | .mark _ => (r, [])
  | .other => (r, [])

/-- How a state takes committed changes and marks. A mark that replaces the state drops
what is held back. -/
structure Replay (α μ σ : Type*) where
  apply : σ → List (Nat × α) → σ
  mark : σ → Nat → μ → Option (σ × Bool)

namespace Replay

variable (R : Replay α μ σ)

def step (s : σ × Reader α) (seq : Nat) : Record α μ → Option (σ × Reader α)
  | .mark m => (R.mark s.1 seq m).map fun result => (result.1, if result.2 then .empty else s.2)
  | record => some (R.apply s.1 (s.2.feed seq record).2, (s.2.feed seq record).1)

/-- The records after number `seq`. -/
def run : σ × Reader α → Nat → List (Record α μ) → Option (σ × Reader α)
  | s, _, [] => some s
  | s, seq, record :: records => (R.step s (seq + 1) record).bind fun s' => run s' (seq + 1) records

end Replay

/-- A transaction in one piece. -/
def block (tx : Nat) (changes : List α) : List (Record α μ) := changes.map (.op tx) ++ [.commit tx]

/-- The changes with the numbers of their records, the first one after `seq`. -/
def numbered (seq : Nat) : List α → List (Nat × α)
  | [] => []
  | c :: changes => (seq + 1, c) :: numbered (seq + 1) changes

/-- A change with the property is held back. -/
def Reader.Holds (p : α → Prop) (r : Reader α) : Prop :=
  ∃ tx held, r.pending.lookup tx = some held ∧ ∃ change ∈ held, p change.2

/-- The record makes a change with the property. -/
def Record.Changes (p : α → Prop) : Record α μ → Prop
  | .op _ c => p c
  | _ => False

section
variable {R : Replay α μ σ} {s : σ}

theorem Reader.not_holds_empty {p : α → Prop} : ¬ (Reader.empty : Reader α).Holds p := by
  rintro ⟨tx, held, hlookup, -⟩
  simp [Reader.empty] at hlookup

/-- No change is lost, and none is made up: what is held back or committed after the
record was held back before, or is the record's own. -/
theorem Reader.feed_holds {p : α → Prop} (r : Reader α) (seq : Nat) (record : Record α μ) :
    (r.feed seq record).1.Holds p ∨ (∃ change ∈ (r.feed seq record).2, p change.2) ↔ r.Holds p ∨ record.Changes p := by
  have hgetD (tx) (h : ∃ change ∈ (r.pending.lookup tx).getD [], p change.2) : r.Holds p := by
    cases hlookup : r.pending.lookup tx with
    | none => simp [hlookup] at h
    | some held => exact ⟨tx, held, hlookup, by simpa [hlookup] using h⟩
  cases record with
  | mark m | other => simp [Reader.feed, Record.Changes]
  | op tx c =>
    by_cases htx : tx = 0
    · simp [Reader.feed, Record.Changes, htx]
    simp only [Reader.feed, Reader.Holds, if_neg htx, Table.lookup_insert, not_mem_nil, false_and, exists_false,
      or_false, Record.Changes]
    constructor
    · rintro ⟨tx', held, hlookup, change, hchange, hp⟩
      split at hlookup
      · rw [← some.inj hlookup] at hchange
        rcases mem_append.mp hchange with hold | hnew
        · exact .inl (hgetD tx ⟨change, hold, hp⟩)
        · rw [mem_singleton.mp hnew] at hp
          exact .inr hp
      · exact .inl ⟨tx', held, hlookup, change, hchange, hp⟩
    · rintro (⟨tx', held, hlookup, change, hchange, hp⟩ | hp)
      · by_cases heq : tx' = tx
        · subst heq
          refine ⟨tx', _, if_pos rfl, change, ?_, hp⟩
          rw [hlookup]
          exact mem_append_left _ hchange
        · exact ⟨tx', held, by rw [if_neg heq, hlookup], change, hchange, hp⟩
      · exact ⟨tx, _, if_pos rfl, (seq, c), mem_append_right _ mem_cons_self, hp⟩
  | commit tx =>
    simp only [Reader.feed, Reader.Holds, Table.lookup_erase, Record.Changes, or_false]
    constructor
    · rintro (⟨tx', held, hlookup, hchange⟩ | hchange)
      · split at hlookup
        · simp at hlookup
        · exact ⟨tx', held, hlookup, hchange⟩
      · exact hgetD tx hchange
    · rintro ⟨tx', held, hlookup, hchange⟩
      by_cases heq : tx' = tx
      · subst heq
        right
        rwa [hlookup]
      · exact .inl ⟨tx', held, by rw [if_neg heq, hlookup], hchange⟩

theorem length_block (tx : Nat) (changes : List α) :
    (block tx changes : List (Record α μ)).length = changes.length + 1 := by
  simp [block]

theorem numbered_map_snd (changes : List α) : ∀ seq, (numbered seq changes).map Prod.snd = changes := by
  induction changes with
  | nil => intro seq; rfl
  | cons c changes ih => intro seq; rw [numbered, map_cons, ih]

/-- The last change is in the record before the commit. -/
theorem le_of_mem_numbered (changes : List α) :
    ∀ {seq n : Nat} {c : α}, (n, c) ∈ numbered seq changes → seq < n ∧ n ≤ seq + changes.length := by
  induction changes with
  | nil => intro seq n c h; exact absurd h not_mem_nil
  | cons c' changes ih =>
    intro seq n c h
    rw [length_cons]
    rcases mem_cons.mp h with heq | hmem
    · cases heq
      omega
    · have := ih hmem
      omega

theorem numbered_last (changes : List α) (hne : changes ≠ []) :
    ∀ seq, ∃ c, (seq + changes.length, c) ∈ numbered seq changes := by
  induction changes with
  | nil => exact absurd rfl hne
  | cons c changes ih =>
    intro seq
    rw [length_cons]
    by_cases hnil : changes = []
    · rw [hnil]
      exact ⟨c, mem_cons_self⟩
    · obtain ⟨c', hc'⟩ := ih hnil (seq + 1)
      refine ⟨c', mem_cons_of_mem _ ?_⟩
      rwa [show seq + (changes.length + 1) = seq + 1 + changes.length by omega]

theorem Replay.run_append {s : σ × Reader α} (records records' : List (Record α μ)) : ∀ (seq : Nat),
    R.run s seq (records ++ records') =
      (R.run s seq records).bind fun s' => R.run s' (seq + records.length) records' := by
  induction records generalizing s with
  | nil => intro seq; rfl
  | cons record records ih =>
    intro seq
    rw [cons_append, run, run, bind_assoc]
    congr 1
    funext s'
    rw [ih, length_cons]
    congr 1
    funext s''
    rw [show seq + 1 + records.length = seq + (records.length + 1) by omega]

theorem Replay.run_ops (hnil : ∀ s, R.apply s [] = s) {tx : Nat} (htx : tx ≠ 0) (changes : List α) :
    ∀ (held : List (Nat × α)) (seq : Nat),
      R.run (s, ⟨(∅ : AList fun _ : Nat => List (Nat × α)).insert tx held⟩) seq (changes.map (.op tx)) =
        some (s, ⟨(∅ : AList fun _ : Nat => List (Nat × α)).insert tx (held ++ numbered seq changes)⟩) := by
  induction changes with
  | nil => intro held seq; rw [numbered, append_nil]; rfl
  | cons c changes ih =>
    intro held seq
    rw [map_cons, run]
    simp only [step, Reader.feed, if_neg htx, lookup_insert, getD_some, insert_insert, hnil, bind_some]
    rw [ih, numbered, append_assoc]
    rfl

/-- A transaction in one piece is applied as a whole, and nothing is held back after it. -/
theorem Replay.run_block (hnil : ∀ s, R.apply s [] = s) {tx : Nat} (htx : tx ≠ 0) (changes : List α) (seq : Nat) :
    R.run (s, .empty) seq (block tx changes) = some (R.apply s (numbered seq changes), .empty) := by
  have hcommit (held : List (Nat × α)) (seq : Nat) :
      R.run (s, ⟨(∅ : AList fun _ : Nat => List (Nat × α)).insert tx held⟩) seq [.commit tx] =
        some (R.apply s held, .empty) := by
    simp only [run, step, Reader.feed, lookup_insert, getD_some, bind_some]
    congr 2
    apply congrArg Reader.mk
    apply AList.ext
    exact kerase_cons_eq rfl
  cases changes with
  | nil => exact congrArg (fun t => some (R.apply s [], t)) (congrArg Reader.mk (ext rfl))
  | cons c changes =>
    rw [block, map_cons, cons_append, run]
    simp only [step, Reader.feed, if_neg htx, hnil, bind_some]
    have hhead : (Reader.mk ((Reader.empty : Reader α).pending.insert tx
        (((Reader.empty : Reader α).pending.lookup tx).getD [] ++ [(seq + 1, c)]))) =
        ⟨(∅ : AList fun _ : Nat => List (Nat × α)).insert tx [(seq + 1, c)]⟩ := rfl
    rw [hhead, run_append, run_ops hnil htx, bind_some, hcommit]
    rfl

/-- A record that is no mark is fed to the reader. -/
theorem Replay.step_feed (s : σ × Reader α) (seq : Nat) {record : Record α μ} (h : ∀ m, record ≠ .mark m) :
    R.step s seq record = some (R.apply s.1 (s.2.feed seq record).2, (s.2.feed seq record).1) := by
  cases record with
  | mark m => exact absurd rfl (h m)
  | _ => rfl

/-- A projection that commutes with changes and marks commutes with a replay. -/
theorem Replay.run_map {τ : Type*} {S : Replay α μ τ} (π : σ → τ)
    (happly : ∀ s changes, π (R.apply s changes) = S.apply (π s) changes)
    (hmark : ∀ s seq m, S.mark (π s) seq m = (R.mark s seq m).map fun result => (π result.1, result.2))
    (records : List (Record α μ)) : ∀ (s : σ) (held : Reader α) (seq : Nat),
      S.run (π s, held) seq records = (R.run (s, held) seq records).map fun result => (π result.1, result.2) := by
  have hstep : ∀ (s : σ) (held : Reader α) seq record,
      S.step (π s, held) seq record = (R.step (s, held) seq record).map fun result => (π result.1, result.2) := by
    intro s held seq record
    cases record with
    | mark m =>
      simp only [step, hmark, Option.map_map]
      rfl
    | _ => simp only [step, happly, map_some]
  induction records with
  | nil => intro s held seq; rfl
  | cons record records ih =>
    intro s held seq
    rw [run, run, hstep]
    cases R.step (s, held) (seq + 1) record with
    | none => rfl
    | some s' => exact ih s'.1 s'.2 (seq + 1)

/-- An invariant of the state that changes without `p` and marks with `q` keep. -/
theorem Replay.run_inv {I : σ → Prop} {p : α → Prop} {q : μ → Prop}
    (happly : ∀ s changes, I s → (∀ change ∈ changes, ¬ p change.2) → I (R.apply s changes))
    (hmark : ∀ s seq m result, I s → q m → R.mark s seq m = some result → I result.1) (records : List (Record α μ)) :
    ∀ {s s' : σ} {held held' : Reader α} {seq : Nat}, I s → ¬ held.Holds p →
      (∀ record ∈ records, ¬ record.Changes p ∧ ∀ m, record = .mark m → q m) →
      R.run (s, held) seq records = some (s', held') → I s' := by
  induction records with
  | nil => intro s s' held held' seq hI _ _ h; cases h; exact hI
  | cons record records ih =>
    intro s s' held held' seq hI hheld hrecords h
    obtain ⟨⟨hchange, hok⟩, hrest⟩ := forall_mem_cons.mp hrecords
    obtain ⟨⟨mid, heldMid⟩, hstep, hrun⟩ := bind_eq_some_iff.mp h
    by_cases hmk : ∃ m, record = .mark m
    · obtain ⟨m, rfl⟩ := hmk
      obtain ⟨result, hresult, heq⟩ := map_eq_some_iff.mp hstep
      cases heq
      refine ih (hmark _ _ _ _ hI (hok m rfl) hresult) ?_ hrest hrun
      split
      · exact Reader.not_holds_empty
      · exact hheld
    · rw [step_feed _ _ fun m heq => hmk ⟨m, heq⟩] at hstep
      cases hstep
      -- nothing with the property is held back or committed
      have hnone := mt (Reader.feed_holds held (seq + 1) record).mp (not_or.mpr ⟨hheld, hchange⟩)
      obtain ⟨hheld', hcommitted⟩ := not_or.mp hnone
      exact ih (happly _ _ hI fun change hmem hp => hcommitted ⟨change, hmem, hp⟩) hheld' hrest hrun

end

end TxLog
