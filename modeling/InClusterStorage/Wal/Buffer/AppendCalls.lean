import Mathlib.Logic.Function.Basic
import Mathlib.Tactic.Common
import InClusterStorage.Lib.Runs

/- Calls of `Append` and the state of their stream.

   `Append` gets the state (`getOrCreateStream`) and counts itself in (`attachments`) in
   critical sections of their own, `evictIdleStreams` removes a state that no call is
   counted in, and `commitItems` finds the state by the id of the stream. The machine has
   one stream, and numbers the states that are made for it.

   1. `calls_live`: in a run whose steps meet `Unhurried`, every call that is counted in has
      the state of the map, and its records are counted out there.
   2. `call_orphaned`: a state is evicted between the sections. -/
namespace InClusterStorage.Wal.Buffer

open List Runs Function

/-- Where a call of `Append` stands, with the state it has. -/
inductive AppendPc where
  /-- between the sections of `getOrCreateStream` -/
  | discovering
  /-- `getOrCreateStream` has returned -/
  | found (st : Nat)
  | attached (st : Nat)
  | returned
  deriving DecidableEq

structure AppendCalls where
  /-- the state in the map -/
  current : Option Nat := none
  created : Nat := 0
  attachments : Nat → Nat := fun _ => 0
  inFlight : Nat → Int := fun _ => 0
  calls : List AppendPc := []
  /-- the states in which the records in the channel are counted -/
  incoming : List Nat := []
  /-- for the records that are through `commitItems`: where each was counted, and what was told of it -/
  told : List (Nat × Option Nat) := []

inductive AppendEvent where
  | hello
  /-- the second section of `getOrCreateStream` -/
  | discovered (call : Nat)
  | attach (call : Nat)
  | send (call : Nat)
  | detach (call : Nat)
  /-- `evictIdleStreams`, where the stream store agrees -/
  | evict
  /-- `commitItems` for the next records; the write may fail -/
  | commit (n : Nat) (ok : Bool)

namespace AppendCalls

/-- The state in the map, or a new one. -/
def ensure (s : AppendCalls) : AppendCalls :=
  if s.current.isSome then s else { s with current := some s.created, created := s.created + 1 }

def commitItems (batch : List Nat) (ok : Bool) (s : AppendCalls) : AppendCalls :=
  let s := if ok ∧ batch ≠ [] then s.ensure else s
  { s with
    inFlight := fun st => s.inFlight st - if s.current = some st then batch.length else 0
    told := s.told ++ batch.map (·, s.current) }

def step (s : AppendCalls) : AppendEvent → Option AppendCalls
  | .hello => some { s with calls := s.calls ++ [s.current.elim .discovering .found] }
  | .discovered i =>
    if s.calls[i]? = some .discovering then
      some { s.ensure with calls := s.calls.set i (s.ensure.current.elim .discovering .found) }
    else none
  | .attach i => match s.calls[i]? with
    | some (.found st) => some { s with
        attachments := update s.attachments st (s.attachments st + 1), calls := s.calls.set i (.attached st) }
    | _ => none
  | .send i => match s.calls[i]? with
    | some (.attached st) => some { s with
        inFlight := update s.inFlight st (s.inFlight st + 1), incoming := s.incoming ++ [st] }
    | _ => none
  | .detach i => match s.calls[i]? with
    | some (.attached st) => some { s with
        attachments := update s.attachments st (s.attachments st - 1), calls := s.calls.set i .returned }
    | _ => none
  | .evict => match s.current with
    | some st => if s.attachments st = 0 then some { s with current := none } else none
    | none => none
  | .commit n ok => some { s.commitItems (s.incoming.take n) ok with incoming := s.incoming.drop n }

/-- Every call that is counted in has the state of the map, and the records that are counted
there were counted out there. -/
def Live (s : AppendCalls) : Prop :=
  ∀ st, .attached st ∈ s.calls → s.current = some st ∧ ∀ t, (st, t) ∈ s.told → t = some st

/-- No state is evicted that a call has got, and is not counted in yet. -/
def Unhurried (s : AppendCalls) : AppendEvent → Prop
  | .evict => ∀ st ∈ s.current, .found st ∉ s.calls
  | _ => True

instance (s : AppendCalls) (e : AppendEvent) : Decidable (s.Unhurried e) := by
  unfold Unhurried
  split <;> infer_instance

structure Inv (s : AppendCalls) : Prop where
  found : ∀ st, .found st ∈ s.calls → s.current = some st
  attached : ∀ st, .attached st ∈ s.calls → s.current = some st
  counts : ∀ st, s.attachments st = s.calls.count (.attached st)
  told : ∀ x ∈ s.told, s.current = some x.1 → x.2 = some x.1
  /-- a new state is none of these -/
  current_lt : ∀ st, s.current = some st → st < s.created
  incoming_lt : ∀ st ∈ s.incoming, st < s.created
  told_lt : ∀ x ∈ s.told, x.1 < s.created

variable {s s' : AppendCalls}

theorem Inv.live (h : s.Inv) : s.Live :=
  fun st hst => ⟨h.attached st hst, fun t ht => h.told (st, t) ht (h.attached st hst)⟩

theorem Inv.ensure (h : s.Inv) : s.ensure.Inv := by
  unfold AppendCalls.ensure
  split
  · exact h
  · next hnone =>
    -- no call has a state, and the new one is not in any list yet
    have hno (st) : s.current ≠ some st := fun hst => hnone (by rw [hst]; rfl)
    refine { h with
      found := fun st hst => absurd (h.found st hst) (hno st)
      attached := fun st hst => absurd (h.attached st hst) (hno st)
      told := fun x hx hst => ?_
      current_lt := fun st hst => ?_
      incoming_lt := fun st hst => Nat.lt_succ_of_lt (h.incoming_lt st hst)
      told_lt := fun x hx => Nat.lt_succ_of_lt (h.told_lt x hx) }
    · exact absurd (Option.some.inj hst ▸ h.told_lt x hx) (Nat.lt_irrefl _)
    · exact Option.some.inj hst ▸ Nat.lt_succ_self _

theorem created_le_ensure (s : AppendCalls) : s.created ≤ s.ensure.created := by
  unfold ensure
  split
  · exact Nat.le_refl _
  · exact Nat.le_succ _

theorem ensure_calls (s : AppendCalls) : s.ensure.calls = s.calls ∧ s.ensure.incoming = s.incoming := by
  unfold ensure
  split <;> exact ⟨rfl, rfl⟩

theorem Inv.commitItems (h : s.Inv) {batch : List Nat} (hbatch : batch ⊆ s.incoming) (ok : Bool) :
    (s.commitItems batch ok).Inv := by
  have hbase : (if ok ∧ batch ≠ [] then s.ensure else s).Inv := by
    split
    · exact h.ensure
    · exact h
  refine { hbase with told := ?_, told_lt := ?_ }
  · refine forall_mem_append.mpr ⟨hbase.told, forall_mem_map.mpr fun st _ hst => hst⟩
  · refine forall_mem_append.mpr ⟨hbase.told_lt, forall_mem_map.mpr fun st hst => ?_⟩
    refine Nat.lt_of_lt_of_le (h.incoming_lt st (hbatch hst)) ?_
    unfold AppendCalls.commitItems
    dsimp only
    split
    · exact s.created_le_ensure
    · exact Nat.le_refl _

theorem commitItems_incoming (batch : List Nat) (ok : Bool) (s : AppendCalls) :
    (s.commitItems batch ok).incoming = s.incoming := by
  unfold commitItems
  dsimp only
  split
  · exact s.ensure_calls.2
  · rfl

/-- A call that has a state has that of the map, and is counted where it is counted in. -/
theorem Inv.withCalls (h : s.Inv) {calls : List AppendPc} {attachments : Nat → Nat}
    (hcalls : ∀ pc ∈ calls, pc ∈ s.calls ∨ ∀ st, pc = .found st ∨ pc = .attached st → s.current = some st)
    (hcounts : ∀ st, attachments st = calls.count (.attached st)) : { s with calls, attachments }.Inv :=
  { h with
    found := fun st hst => (hcalls _ hst).elim (h.found st) fun hnew => hnew st (.inl rfl)
    attached := fun st hst => (hcalls _ hst).elim (h.attached st) fun hnew => hnew st (.inr rfl)
    counts := hcounts }

theorem count_set_add {calls : List AppendPc} {i : Nat} {pc : AppendPc} (h : calls[i]? = some pc) (pc' a : AppendPc) :
    (calls.set i pc').count a + (if pc = a then 1 else 0) = calls.count a + if pc' = a then 1 else 0 := by
  obtain ⟨hlt, rfl⟩ := List.getElem?_eq_some_iff.mp h
  have hcount := count_set (a := pc') (b := a) hlt
  simp only [beq_iff_eq] at hcount
  by_cases heq : calls[i] = a
  · have hpos : 0 < calls.count a := count_pos_iff.mpr (heq ▸ getElem_mem hlt)
    rw [if_pos heq] at hcount ⊢
    omega
  · rw [if_neg heq] at hcount ⊢
    omega

theorem current_of_elim {o : Option Nat} (st : Nat) :
    (o.elim AppendPc.discovering .found = .found st ∨ o.elim AppendPc.discovering .found = .attached st → o = some st) ∧
      o.elim AppendPc.discovering .found ≠ .attached st := by
  cases o <;> simp

theorem Inv.step {e : AppendEvent} (h : s.Inv) (hok : s.Unhurried e) (hs : s.step e = some s') : s'.Inv := by
  cases e with simp only [AppendCalls.step] at hs
  | hello =>
    cases hs
    refine h.withCalls (forall_mem_append.mpr ⟨fun _ => .inl,
        forall_mem_singleton.mpr (.inr fun st => (current_of_elim st).1)⟩)
      fun st => ?_
    rw [count_append, count_singleton, h.counts, if_neg (by simpa using (current_of_elim st).2), Nat.add_zero]
  | discovered i =>
    split at hs <;> cases hs
    next hcall =>
    obtain ⟨hcalls, -⟩ := s.ensure_calls
    refine h.ensure.withCalls (fun pc hpc => ?_) fun st => ?_
    · refine (mem_or_eq_of_mem_set hpc).imp (hcalls ▸ ·) ?_
      rintro rfl st
      exact (current_of_elim st).1
    · have hcount := count_set_add hcall (s.ensure.current.elim .discovering .found) (.attached st)
      rw [if_neg nofun, if_neg (current_of_elim st).2] at hcount
      rw [h.ensure.counts, hcalls]
      exact hcount.symm
  | attach i =>
    split at hs <;> cases hs
    next st hcall =>
    have hcurrent := h.found st (mem_of_getElem? hcall)
    refine h.withCalls (fun pc hpc => ?_) fun st' => ?_
    · refine (mem_or_eq_of_mem_set hpc).imp_right fun heq st' hst' => ?_
      rw [heq] at hst'
      simpa [hcurrent] using hst'
    · have hcount := count_set_add hcall (.attached st) (.attached st')
      rw [if_neg nofun] at hcount
      rw [update_apply, h.counts, h.counts]
      by_cases hst' : st' = st
      · subst hst'
        rw [if_pos rfl] at hcount ⊢
        exact hcount.symm
      · rw [if_neg (by simpa [eq_comm] using hst')] at hcount
        rw [if_neg hst']
        exact hcount.symm
  | detach i =>
    split at hs <;> cases hs
    next st hcall =>
    refine h.withCalls (fun pc hpc => ?_) fun st' => ?_
    · exact (mem_or_eq_of_mem_set hpc).imp_right fun heq st' hst' => by simp [heq] at hst'
    · have hcount := count_set_add hcall .returned (.attached st')
      rw [if_neg (show AppendPc.returned ≠ .attached st' from nofun)] at hcount
      rw [update_apply, h.counts, h.counts]
      by_cases hst' : st' = st
      · subst hst'
        rw [if_pos rfl] at hcount ⊢
        omega
      · rw [if_neg (by simpa [eq_comm] using hst')] at hcount
        rw [if_neg hst']
        exact hcount.symm
  | send i =>
    split at hs <;> cases hs
    next st hcall =>
    have hlt := h.current_lt st (h.attached st (mem_of_getElem? hcall))
    exact { h with incoming_lt := forall_mem_append.mpr ⟨h.incoming_lt, forall_mem_singleton.mpr hlt⟩ }
  | evict =>
    split at hs
    · next st hcurrent =>
      split at hs <;> cases hs
      next hidle =>
      -- no call is counted in, and none has got the state
      have hnone : AppendPc.attached st ∉ s.calls := count_eq_zero.mp ((h.counts st).symm.trans hidle)
      refine { h with found := fun st' hst' => ?_, attached := fun st' hst' => ?_, told := nofun, current_lt := nofun }
      · cases hcurrent.symm.trans (h.found st' hst')
        exact absurd hst' (hok st hcurrent)
      · cases hcurrent.symm.trans (h.attached st' hst')
        exact absurd hst' hnone
    · cases hs
  | commit n ok =>
    cases hs
    have hcommitted := h.commitItems (take_subset n s.incoming) ok
    have hlt := hcommitted.incoming_lt
    rw [commitItems_incoming] at hlt
    exact { hcommitted with incoming_lt := fun st hst => hlt st (mem_of_mem_drop hst) }

/-- Along every run from a server without calls, with or without a state, whose steps meet
`Unhurried`. -/
theorem calls_live {s : AppendCalls} (hs : s = {} ∨ s = ensure {}) {events : List AppendEvent}
    (hrun : Allowed AppendCalls.step Unhurried s events) : Throughout AppendCalls.step Live s events := by
  have hnew : ({} : AppendCalls).Inv := by constructor <;> simp
  have hinv : s.Inv := by
    rcases hs with rfl | rfl
    · exact hnew
    · exact hnew.ensure
  exact Allowed.throughout (fun s hi => hi.live) (fun s e s' hi hok hs => hi.step hok hs) hinv hrun

/-- The state is evicted after the call has returned. -/
theorem calls_live_evicted :
    let run : List AppendEvent := [.hello, .discovered 0, .attach 0, .send 0, .commit 1 true, .detach 0, .evict]
    (exec AppendCalls.step {} run).isSome ∧ Throughout AppendCalls.step Live {} run :=
  ⟨by decide, calls_live (.inl rfl) (by decide)⟩

/-- The state is evicted before the call is counted in. The next call gets another state,
whose count goes down by the record of the first. -/
theorem call_orphaned : let run : List AppendEvent :=
      [.hello, .discovered 0, .evict, .attach 0, .hello, .discovered 1, .attach 1, .send 0, .commit 1 true]
    (exec AppendCalls.step {} run).map (fun s => (s.calls, s.current, s.told, s.inFlight 0, s.inFlight 1)) =
        some ([.attached 0, .attached 1], some 1, [(0, some 1)], 1, -1) ∧
      ¬ Throughout AppendCalls.step Live {} run := by
  refine ⟨rfl, fun h => ?_⟩
  have hlast := h.last (Option.some_get (by decide)).symm
  exact absurd (hlast 0 (by decide)).1 (by decide)

end AppendCalls
end InClusterStorage.Wal.Buffer
