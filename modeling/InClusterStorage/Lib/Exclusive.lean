import Mathlib.Data.List.Basic

/- A section that one thread at a time may be in, guarded by a flag. The threads
   are the list of their program counters; `busy` tells which counters lie in the
   section. A thread sets the flag when it enters and clears it when it leaves, so
   whoever finds the flag clear knows that nobody is inside, and whoever is
   inside knows that it is alone: `set` keeps the property at each step of such a
   thread, and `flatMap_set` finds what the one busy thread holds. -/
namespace Threads

open List

variable {π α : Type*}

/-- The flag is set while a thread is busy, and at most one is. -/
structure Exclusive (busy : π → Prop) (flag : Bool) (pcs : List π) : Prop where
  flag : ∀ (i : Nat) (pc : π), pcs[i]? = some pc → busy pc → flag = true
  unique : ∀ (i j : Nat) (pc pc' : π), pcs[i]? = some pc → pcs[j]? = some pc' → busy pc → busy pc' → i = j

/-- What the list maps to is what one entry maps to, if the others map to nothing. -/
theorem flatMap_eq_of_others {f : π → List α} {pcs : List π} : ∀ {t : Nat} {pc : π},
    pcs[t]? = some pc → (∀ (i : Nat) (pc' : π), pcs[i]? = some pc' → i ≠ t → f pc' = []) → pcs.flatMap f = f pc := by
  induction pcs with
  | nil => intro t pc ht _; simp at ht
  | cons first rest ih =>
    intro t pc ht hothers
    rw [flatMap_cons]
    cases t with
    | zero =>
      simp only [getElem?_cons_zero, Option.some.injEq] at ht
      have hnil : rest.flatMap f = [] := by
        rw [flatMap_eq_nil_iff]
        intro pc' hpc'
        obtain ⟨i, hi⟩ := mem_iff_getElem?.1 hpc'
        exact hothers (i + 1) pc' (by simpa using hi) (by omega)
      rw [hnil, append_nil, ht]
    | succ t =>
      rw [hothers 0 first (by simp) (by omega), nil_append]
      exact ih (by simpa using ht) fun i pc' hi hne => hothers (i + 1) pc' (by simpa using hi) (by omega)

namespace Exclusive

theorem nil (busy : π → Prop) (flag : Bool) : Exclusive busy flag [] := ⟨by simp, by simp⟩

/-- The flag may be clear only if nobody is inside. -/
theorem clear_iff {busy : π → Prop} {pcs : List π} : Exclusive busy false pcs ↔ ∀ pc ∈ pcs, ¬ busy pc := by
  constructor
  · intro h pc hpc hb
    obtain ⟨i, hi⟩ := mem_iff_getElem?.1 hpc
    simpa using h.flag i pc hi hb
  · intro h
    have hout : ∀ (i : Nat) (pc : π), pcs[i]? = some pc → ¬ busy pc := fun i pc hi =>
      h pc (mem_of_getElem? hi)
    exact ⟨fun i pc hi hb => absurd hb (hout i pc hi), fun i _ pc _ hi _ hb => absurd hb (hout i pc hi)⟩

variable {busy : π → Prop} {flag : Bool} {pcs : List π} (h : Exclusive busy flag pcs)
include h

/-- A thread that starts outside the section. -/
theorem spawn {pc : π} (hpc : ¬ busy pc) : Exclusive busy flag (pcs ++ [pc]) := by
  have hold (i : Nat) (pc' : π) (hi : (pcs ++ [pc])[i]? = some pc') (hb : busy pc') : pcs[i]? = some pc' := by
    rw [getElem?_append] at hi
    split at hi
    · exact hi
    rw [getElem?_singleton] at hi
    split at hi
    · exact absurd (Option.some.inj hi ▸ hb) hpc
    · simp at hi
  exact ⟨fun i pc' hi hb => h.flag i pc' (hold i pc' hi hb) hb,
    fun i j _ _ hi hj hb hb' => h.unique i j _ _ (hold i _ hi hb) (hold j _ hj hb') hb hb'⟩

/-- A step of a thread that is outside the section afterwards. -/
theorem outside {t : Nat} {pc' : π} (hpc' : ¬ busy pc') : Exclusive busy flag (pcs.set t pc') := by
  have hold (i : Nat) (x : π) (hi : (pcs.set t pc')[i]? = some x) (hb : busy x) : pcs[i]? = some x := by
    by_cases hit : t = i
    · subst hit
      obtain ⟨hlt, hx⟩ := List.getElem?_eq_some_iff.1 hi
      rw [getElem_set_self] at hx
      exact absurd (hx ▸ hb) hpc'
    · rwa [getElem?_set_ne hit] at hi
  exact ⟨fun i x hi hb => h.flag i x (hold i x hi hb) hb,
    fun i j _ _ hi hj hb hb' => h.unique i j _ _ (hold i _ hi hb) (hold j _ hj hb') hb hb'⟩

variable {t : Nat} {pc : π} (ht : pcs[t]? = some pc) (hpc : busy pc ∨ flag = false)
include ht hpc

/-- The thread is alone in the section, or nobody is there. -/
theorem others {i : Nat} {pc' : π} (hi : pcs[i]? = some pc') (hne : i ≠ t) : ¬ busy pc' := by
  intro hb
  rcases hpc with hpc | hflag
  · exact hne (h.unique i t pc' pc hi ht hb hpc)
  · exact absurd (h.flag i pc' hi hb) (by simp [hflag])

/-- A step of the thread, which sets the flag if it is in the section afterwards. -/
theorem set {pc' : π} {flag' : Bool} (hflag : busy pc' → flag' = true) : Exclusive busy flag' (pcs.set t pc') := by
  have hself (i : Nat) (x : π) (hi : (pcs.set t pc')[i]? = some x) (hb : busy x) : i = t ∧ x = pc' := by
    by_cases hit : i = t
    · subst hit
      rw [List.getElem?_set_self (List.getElem?_eq_some_iff.1 ht).1, Option.some.injEq] at hi
      exact ⟨rfl, hi.symm⟩
    · rw [getElem?_set_ne fun heq => hit heq.symm] at hi
      exact absurd hb (h.others ht hpc hi hit)
  constructor
  · intro i x hi hb
    exact hflag ((hself i x hi hb).2 ▸ hb)
  · intro i j x y hi hj hb hb'
    rw [(hself i x hi hb).1, (hself j y hj hb').1]

/-- What the threads hold is what this one holds, before and after its step. -/
theorem flatMap_set {f : π → List α} (hf : ∀ x, ¬ busy x → f x = []) (pc' : π) :
    pcs.flatMap f = f pc ∧ (pcs.set t pc').flatMap f = f pc' := by
  refine ⟨flatMap_eq_of_others ht fun i x hi hne => hf x (h.others ht hpc hi hne), ?_⟩
  refine flatMap_eq_of_others (List.getElem?_set_self (List.getElem?_eq_some_iff.1 ht).1) fun i x hi hne => ?_
  rw [getElem?_set_ne hne.symm] at hi
  exact hf x (h.others ht hpc hi hne)

end Exclusive

end Threads
