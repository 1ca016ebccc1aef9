import InClusterStorage.Lib.Table

/- Runs of operations on a table, each of which changes the value of one key only.

   `run step t ops` applies the operations one after the other and stops at the first one that
   fails. An operation may read the whole table, but the value of a key at the end is made by
   the operations of that key alone, each applied in some table that the run passes through
   (`stepsAt_of_run`). So a result about one key is proved from the few operations it has. Where
   the effect of an operation does not depend on the table, they are one fold (`foldAt`). -/
namespace KeyedSteps

open List

variable {κ ν ω : Type*}

/-- The table after the operations, or `none` where one of them fails. -/
def run (step : (AList fun _ : κ => ν) → ω → Option (AList fun _ : κ => ν)) :
    (AList fun _ : κ => ν) → List ω → Option (AList fun _ : κ => ν)
  | t, [] => some t
  | t, op :: ops => match step t op with
    | none => none
    | some t' => run step t' ops

/-- The operations of one key, by their effects. -/
def foldAt (effect : ω → Option ν → Option (Option ν)) : List ω → Option ν → Option (Option ν)
  | [], a => some a
  | op :: ops, a => (effect op a).bind (foldAt effect ops)

theorem foldAt_append (effect : ω → Option ν → Option (Option ν)) (ops ops' : List ω) (a : Option ν) :
    foldAt effect (ops ++ ops') a = (foldAt effect ops a).bind (foldAt effect ops') := by
  induction ops generalizing a with
  | nil => rfl
  | cons op ops ih =>
    simp only [cons_append, foldAt]
    cases effect op a with
    | none => rfl
    | some b => exact ih b

section
variable {step : (AList fun _ : κ => ν) → ω → Option (AList fun _ : κ => ν)} {key : ω → κ} {t t' : AList fun _ : κ => ν}

theorem run_cons {op : ω} {ops : List ω} :
    run step t (op :: ops) = some t' ↔ ∃ t₁, step t op = some t₁ ∧ run step t₁ ops = some t' := by
  simp only [run]
  cases step t op with
  | none | some t₁ => simp

theorem run_append {ops ops' : List ω} :
    run step t (ops ++ ops') = some t' ↔ ∃ t₁, run step t ops = some t₁ ∧ run step t₁ ops' = some t' := by
  induction ops generalizing t with
  | nil => simp [run]
  | cons op ops ih =>
    rw [cons_append, run_cons]
    simp only [run_cons, ih]
    refine ⟨fun h => ?_, fun h => ?_⟩
    · obtain ⟨t₁, hstep, t₂, hrun, hrest⟩ := h
      exact ⟨t₂, ⟨t₁, hstep, hrun⟩, hrest⟩
    · obtain ⟨t₂, ⟨t₁, hstep, hrun⟩, hrest⟩ := h
      exact ⟨t₁, hstep, t₂, hrun, hrest⟩

/-- What every step keeps holds at the end. -/
theorem run_inv {I : (AList fun _ : κ => ν) → Prop} {ops : List ω}
    (hstep : ∀ t op t', op ∈ ops → I t → step t op = some t' → I t') :
    ∀ {t : AList fun _ : κ => ν}, I t → run step t ops = some t' → I t' := by
  induction ops with
  | nil =>
    rintro t hI ⟨⟩
    exact hI
  | cons op ops ih =>
    intro t hI h
    obtain ⟨t₁, hfirst, hrest⟩ := run_cons.mp h
    apply ih (fun t op' t' hop => hstep t op' t' (mem_cons_of_mem _ hop)) _ hrest
    exact hstep t op t₁ mem_cons_self hI hfirst

variable [DecidableEq κ]

/-- The operations of one key, each in a table where `I` holds, from value to value. -/
inductive StepsAt (step : (AList fun _ : κ => ν) → ω → Option (AList fun _ : κ => ν))
    (I : (AList fun _ : κ => ν) → Prop) (k : κ) : List ω → Option ν → Option ν → Prop
  | nil (a : Option ν) : StepsAt step I k [] a a
  | cons {t t' : AList fun _ : κ => ν} {op : ω} {ops : List ω} {b : Option ν} (hI : I t) (hstep : step t op = some t')
      (hrest : StepsAt step I k ops (t'.lookup k) b) : StepsAt step I k (op :: ops) (t.lookup k) b

/-- The value of a key is made by the operations of that key. -/
theorem stepsAt_of_run {I : (AList fun _ : κ => ν) → Prop} {ops : List ω} {k : κ}
    (hframe : ∀ t op t', step t op = some t' → ∀ k, k ≠ key op → t'.lookup k = t.lookup k)
    (hstep : ∀ t op t', op ∈ ops → I t → step t op = some t' → I t') :
    ∀ {t : AList fun _ : κ => ν}, I t → run step t ops = some t' →
      StepsAt step I k (ops.filter fun op => key op = k) (t.lookup k) (t'.lookup k) := by
  induction ops with
  | nil =>
    rintro t _ ⟨⟩
    exact .nil _
  | cons op ops ih =>
    intro t hI h
    obtain ⟨t₁, hfirst, hrest⟩ := run_cons.mp h
    have hI₁ := hstep t op t₁ mem_cons_self hI hfirst
    have hsteps := ih (fun t op' t' hop => hstep t op' t' (mem_cons_of_mem _ hop)) hI₁ hrest
    by_cases hk : key op = k
    · rw [filter_cons, if_pos (decide_eq_true hk)]
      exact .cons hI hfirst hsteps
    · rwa [filter_cons, if_neg (by simpa using hk), ← hframe t op t₁ hfirst k (Ne.symm hk)]

end

end KeyedSteps
