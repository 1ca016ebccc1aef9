import Mathlib.Logic.Relation

/- Forests by parent pointers. `up a` is the parent of `a`, and the way up from `a` ends
   at `root`. Where one node is hung below another, with everything else as before, the
   ways to the root are kept exactly if the new parent does not lie below that node:
   `below_moved`, `below_until`, `no_loop`. -/
namespace Forest

open Relation

variable {α : Type*} {up up' : α → Option α} {root a b c : α}

/-- The root has no parent. -/
def Parent (up : α → Option α) (root a b : α) : Prop := a ≠ root ∧ up a = some b

/-- `b` lies on the way up from `a`. -/
def Below (up : α → Option α) (root : α) : α → α → Prop := ReflTransGen (Parent up root)

theorem Parent.unique (h : Parent up root a b) (h' : Parent up root a c) : b = c :=
  Option.some.inj (h.2.symm.trans h'.2)

/-- What reaches the root does not come back to itself. -/
theorem no_loop (h : Below up root a root) : ¬ TransGen (Parent up root) a a := by
  induction h using ReflTransGen.head_induction_on with
  | refl =>
    intro hloop
    obtain ⟨b, hstep, -⟩ := TransGen.head'_iff.1 hloop
    exact hstep.1 rfl
  | head hstep _ ih =>
    intro hloop
    obtain ⟨b, hstep', hback⟩ := TransGen.head'_iff.1 hloop
    cases hstep.unique hstep'
    exact ih (TransGen.tail' hback hstep)

/-! One node is moved: the parents of the other nodes that are there, `present`, are kept. -/

section
variable {present : α → Prop} (hkeep : ∀ a b, present a → a ≠ c → Parent up root a b → Parent up' root a b ∧ present b)

include hkeep

/-- A way up that does not lead through the moved node. -/
theorem below_beside (h : Below up root a b) (ha : present a) (hc : ¬ Below up root a c) : Below up' root a b := by
  induction h using ReflTransGen.head_induction_on with
  | refl => exact .refl
  | @head x y hstep _ ih =>
    have hne : x ≠ c := fun heq => hc (heq ▸ ReflTransGen.refl)
    obtain ⟨hstep', hb⟩ := hkeep _ _ ha hne hstep
    exact .head hstep' (ih hb fun hbelow => hc (.head hstep hbelow))

/-- The way up to the moved node. -/
theorem below_until (h : Below up root a c) (ha : present a) : Below up' root a c := by
  induction h using ReflTransGen.head_induction_on with
  | refl => exact .refl
  | @head x y hstep _ ih =>
    by_cases hne : x = c
    · subst hne
      exact .refl
    · obtain ⟨hstep', hb⟩ := hkeep _ _ ha hne hstep
      exact .head hstep' (ih hb)

/-- Where the moved node reaches the root, so does every other. -/
theorem below_moved (h : Below up root a root) (ha : present a) (hc : present c → Below up' root c root) :
    Below up' root a root := by
  induction h using ReflTransGen.head_induction_on with
  | refl => exact .refl
  | @head x y hstep _ ih =>
    by_cases hne : x = c
    · subst hne
      exact hc ha
    · obtain ⟨hstep', hb⟩ := hkeep _ _ ha hne hstep
      exact .head hstep' (ih hb)

end

end Forest
