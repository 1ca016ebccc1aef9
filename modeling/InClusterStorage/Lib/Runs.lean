import Mathlib.Data.List.Basic

/- Runs of a guarded machine. `step s e` is the state after the event `e`, or
   `none` where `e` is not enabled in `s`. What the environment decides (which
   call fails, which thread moves next) is part of the event, so a machine is a
   function and a run is a list of events.

   `Reach init step ok` holds of every state a run reaches from a state of
   `init` when each event of the run satisfies `ok` in the state before it. An
   invariant is proved once per event (`Reach.inv`); a concrete run is turned
   into a reachable state by evaluation (`Reach.of_exec`). Where a property holds
   all along a run exactly when the steps are allowed, `throughout_iff_allowed`
   lifts the equivalence from one step to the run. -/
namespace Runs

variable {σ ε : Type*}

/-- The state after the events, or `none` where one of them is not enabled. -/
def exec (step : σ → ε → Option σ) : σ → List ε → Option σ
  | s, [] => some s
  | s, e :: es => match step s e with
    | none => none
    | some s' => exec step s' es

/-- Every event of the list that is enabled satisfies `ok` in the state before it. -/
def Allowed (step : σ → ε → Option σ) (ok : σ → ε → Prop) : σ → List ε → Prop
  | _, [] => True
  | s, e :: es => match step s e with
    | none => True
    | some s' => ok s e ∧ Allowed step ok s' es

/-- `P` holds of every state the events pass through, the first one included. -/
def Throughout (step : σ → ε → Option σ) (P : σ → Prop) : σ → List ε → Prop
  | s, [] => P s
  | s, e :: es => P s ∧ match step s e with
    | none => True
    | some s' => Throughout step P s' es

/-- The states reached by events that `ok` allows. -/
inductive Reach (init : σ → Prop) (step : σ → ε → Option σ) (ok : σ → ε → Prop) : σ → Prop where
  | start {s : σ} (h : init s) : Reach init step ok s
  | next {s s' : σ} {e : ε} (h : Reach init step ok s) (hok : ok s e) (hs : step s e = some s') :
      Reach init step ok s'

/-- The condition that allows every event. -/
def always : σ → ε → Prop := fun _ _ => True

section
variable {init : σ → Prop} {step : σ → ε → Option σ} {ok : σ → ε → Prop} {I P : σ → Prop}

/-- What holds initially and is kept by every allowed event holds of every reachable state. -/
theorem Reach.inv (hinit : ∀ s, init s → I s) (hstep : ∀ s e s', I s → ok s e → step s e = some s' → I s') {s : σ}
    (h : Reach init step ok s) : I s := by
  induction h with
  | start h => exact hinit _ h
  | next _ hok hs ih => exact hstep _ _ _ ih hok hs

theorem Reach.exec {es : List ε} : ∀ {s s' : σ}, Reach init step ok s → Allowed step ok s es →
    exec step s es = some s' → Reach init step ok s' := by
  induction es with
  | nil =>
    intro s s' h _ hs
    simp only [Runs.exec, Option.some.injEq] at hs
    exact hs ▸ h
  | cons e es ih =>
    intro s s' h ha hs
    simp only [Runs.exec] at hs
    simp only [Allowed] at ha
    cases he : step s e with
    | none => rw [he] at hs; simp at hs
    | some t =>
      rw [he] at hs ha
      exact ih (.next h ha.1 he) ha.2 hs

theorem allowed_always (es : List ε) : ∀ s : σ, Allowed step always s es := by
  induction es with
  | nil => intro s; trivial
  | cons e es ih =>
    intro s
    simp only [Allowed]
    cases step s e with
    | none => trivial
    | some t => exact ⟨trivial, ih t⟩

theorem Throughout.head {s : σ} : ∀ {es : List ε}, Throughout step P s es → P s
  | [], h => h
  | _ :: _, h => h.1

theorem Throughout.last {es : List ε} : ∀ {s s' : σ}, Throughout step P s es → exec step s es = some s' → P s' := by
  induction es with
  | nil =>
    rintro s s' h ⟨⟩
    exact h
  | cons e es ih =>
    intro s s' h hs
    simp only [Throughout] at h
    simp only [Runs.exec] at hs
    cases he : step s e with
    | none => rw [he] at hs; simp at hs
    | some t =>
      rw [he] at hs h
      exact ih h.2 hs

/-- Where a step keeps `P` exactly when `ok` allows it, `P` holds all along a run
exactly when every step of the run is allowed. -/
theorem throughout_iff_allowed (hstep : ∀ s e s', I s → P s → step s e = some s' → I s' ∧ (P s' ↔ ok s e)) :
    ∀ (es : List ε) {s : σ}, I s → P s → (Throughout step P s es ↔ Allowed step ok s es) := by
  intro es
  induction es with
  | nil => intro s _ hp; exact ⟨fun _ => trivial, fun _ => hp⟩
  | cons e es ih =>
    intro s hi hp
    simp only [Throughout, Allowed]
    cases he : step s e with
    | none => exact ⟨fun _ => trivial, fun _ => ⟨hp, trivial⟩⟩
    | some t =>
      obtain ⟨hi', hiff⟩ := hstep s e t hi hp he
      constructor
      · rintro ⟨-, h⟩
        exact ⟨hiff.1 h.head, (ih hi' h.head).1 h⟩
      · rintro ⟨hok, h⟩
        exact ⟨hp, (ih hi' (hiff.2 hok)).2 h⟩

/-- The same where a step that is not allowed breaks `P`, and what else holds is known
only after the others. -/
theorem throughout_iff_allowed_of_breaks (hkeep : ∀ s e s', I s → P s → ok s e → step s e = some s' → I s' ∧ P s')
    (hbreak : ∀ s e s', I s → P s → ¬ ok s e → step s e = some s' → ¬ P s') :
    ∀ (es : List ε) {s : σ}, I s → P s → (Throughout step P s es ↔ Allowed step ok s es) := by
  intro es s hi hp
  refine throughout_iff_allowed (I := fun s => P s → I s) (fun s e s' h hp hs => ?_) es (fun _ => hi) hp
  by_cases hok : ok s e
  · obtain ⟨hi', hp'⟩ := hkeep s e s' (h hp) hp hok hs
    exact ⟨fun _ => hi', iff_of_true hp' hok⟩
  · have hp' := hbreak s e s' (h hp) hp hok hs
    exact ⟨fun h => absurd h hp', iff_of_false hp' hok⟩

/-- Two conditions that agree on the steps of a run allow the same runs. -/
theorem allowed_iff {ok' : σ → ε → Prop}
    (hstep : ∀ s e s', I s → step s e = some s' → I s' ∧ (ok s e ↔ ok' s e)) :
    ∀ (es : List ε) {s : σ}, I s → (Allowed step ok s es ↔ Allowed step ok' s es) := by
  intro es
  induction es with
  | nil => intro s _; exact Iff.rfl
  | cons e es ih =>
    intro s hi
    simp only [Allowed]
    cases he : step s e with
    | none => exact Iff.rfl
    | some t =>
      obtain ⟨hi', hiff⟩ := hstep s e t hi he
      exact and_congr hiff (ih hi')

/-- Where an invariant of all steps gives the condition, every run is allowed. -/
theorem allowed_of_inv (hok : ∀ s e, I s → ok s e) (hstep : ∀ s e s', I s → step s e = some s' → I s')
    {s : σ} (hi : I s) (es : List ε) : Allowed step ok s es := by
  have hiff : Allowed step ok s es ↔ Allowed step always s es :=
    allowed_iff (fun s e s' hi hs => ⟨hstep s e s' hi hs, iff_of_true (hok s e hi) trivial⟩) es hi
  exact hiff.mpr (allowed_always es s)

/-- What allowed events keep holds all along an allowed run. -/
theorem Allowed.throughout (hI : ∀ s, I s → P s)
    (hstep : ∀ s e s', I s → ok s e → step s e = some s' → I s') :
    ∀ {es : List ε} {s : σ}, I s → Allowed step ok s es → Throughout step P s es := by
  intro es
  induction es with
  | nil => intro s hi _; exact hI s hi
  | cons e es ih =>
    intro s hi ha
    simp only [Allowed] at ha
    refine ⟨hI s hi, ?_⟩
    cases he : step s e with
    | none => trivial
    | some t =>
      rw [he] at ha
      exact ih (hstep s e t hi ha.1 he) ha.2

/-- What every event keeps holds all along every run. -/
theorem throughout_of_inv (hI : ∀ s, I s → P s) (hstep : ∀ s e s', I s → step s e = some s' → I s') {s : σ}
    (hi : I s) (es : List ε) : Throughout step P s es :=
  Allowed.throughout hI (fun s e s' hi _ hs => hstep s e s' hi hs) hi (allowed_always es s)

/-- A list of events that evaluates to `s'` reaches it. -/
theorem Reach.of_exec {s s' : σ} {es : List ε} (hi : init s) (hs : Runs.exec step s es = some s') :
    Reach init step always s' :=
  Reach.exec (.start hi) (allowed_always es s) hs

end

instance Allowed.decidable {step : σ → ε → Option σ} {ok : σ → ε → Prop}
    [∀ s e, Decidable (ok s e)] : ∀ (s : σ) (es : List ε), Decidable (Allowed step ok s es)
  | _, [] => isTrue trivial
  | s, e :: es =>
    match h : step s e with
    | none => isTrue (by simp only [Allowed, h])
    | some s' =>
      have : Decidable (Allowed step ok s' es) := Allowed.decidable s' es
      decidable_of_iff (ok s e ∧ Allowed step ok s' es) (by simp only [Allowed, h])

instance Throughout.decidable {step : σ → ε → Option σ} {P : σ → Prop} [DecidablePred P] :
    ∀ (s : σ) (es : List ε), Decidable (Throughout step P s es)
  | s, [] => inferInstanceAs (Decidable (P s))
  | s, e :: es =>
    match h : step s e with
    | none => decidable_of_iff (P s) (by simp only [Throughout, h, and_true])
    | some s' =>
      have : Decidable (Throughout step P s' es) := Throughout.decidable s' es
      decidable_of_iff (P s ∧ Throughout step P s' es) (by simp only [Throughout, h])

end Runs
