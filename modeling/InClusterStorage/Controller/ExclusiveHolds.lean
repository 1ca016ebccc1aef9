import InClusterStorage.Lib.Runs
import InClusterStorage.Lib.Table
import InClusterStorage.Controller.Namespace

/- The leases that give one mount a volume for itself (`service.go`).

   The controller has one hold for a volume, in memory. `AcquireExclusive` is refused while
   another mount's lease is live; `RenewExclusive` makes a hold where there is none or where
   the other one has expired, so that mounts survive a controller that has forgotten them.
   A mount is stale for a volume if another one was granted the volume since it was.

   1. `renew_fenced_iff`: no stale mount renews in a run if and only if a stale mount calls
      only while a lease on the volume is live.
   2. `stale_renew_succeeds`: a mount comes back after its successor has released the volume,
      and another one after its successor has expired. -/
namespace InClusterStorage.Controller

open List Option Table

/-- A mount on a node. -/
structure Holder where
  nodeID : Name
  mountID : Name
  deriving DecidableEq, Repr

/-- Times are in nanoseconds. -/
structure ExclusiveHold where
  volumeID : Name
  holder : Holder
  acquiredAt : Nat
  leaseExpiry : Nat
  deriving DecidableEq, Repr

structure HoldRequest where
  volumeID : Name
  holder : Holder
  deriving DecidableEq, Repr

inductive HoldError where
  | volumeIDRequired
  | invalidVolumeID
  | nodeIDRequired
  | mountIDRequired
  | aborted (hold : ExclusiveHold)
  | failedPrecondition (hold : ExclusiveHold)
  deriving DecidableEq, Repr

/-- What the server has of the leases. -/
structure Leases where
  exclusiveHolds : AList fun _ : Name => ExclusiveHold := ∅
  exclusiveLeaseTTL : Int := 0

/-- Letters, digits, `.`, `_` and `-`. A character that is not ASCII has a byte that is
none of these. -/
def isValidVolumeID (volumeID : Name) : Bool :=
  volumeID ≠ [] && volumeID ≠ [46] && volumeID ≠ [46, 46] && volumeID.length ≤ 255 &&
    volumeID.all fun b => (97 ≤ b && b ≤ 122) || (65 ≤ b && b ≤ 90) || (48 ≤ b && b ≤ 57) || b = 46 || b = 95 || b = 45

/-- The checks that `AcquireExclusive` and `RenewExclusive` start with. -/
def HoldRequest.check (req : HoldRequest) : Option HoldError :=
  if req.volumeID = [] then some .volumeIDRequired
  else if isValidVolumeID req.volumeID = false then some .invalidVolumeID
  else if req.holder.nodeID = [] then some .nodeIDRequired
  else if req.holder.mountID = [] then some .mountIDRequired
  else none

namespace Leases

def ttl (s : Leases) : Nat :=
  if s.exclusiveLeaseTTL ≤ 0 then 30 * 1000000000 else s.exclusiveLeaseTTL.toNat

/-- The hold is put into the table and returned. -/
def put (volumeID : Name) (hold : ExclusiveHold) (s : Leases) : Leases × Except HoldError ExclusiveHold :=
  ({ s with exclusiveHolds := s.exclusiveHolds.insert volumeID hold }, .ok hold)

def newHold (req : HoldRequest) (now : Nat) (s : Leases) : ExclusiveHold :=
  { volumeID := req.volumeID, holder := req.holder, acquiredAt := now, leaseExpiry := now + s.ttl }

def acquireExclusive (req : HoldRequest) (now : Nat) (s : Leases) : Leases × Except HoldError ExclusiveHold :=
  match req.check with
  | some e => (s, .error e)
  | none =>
    match s.exclusiveHolds.lookup req.volumeID with
    | none => s.put req.volumeID (s.newHold req now)
    | some hold =>
      if now < hold.leaseExpiry then
        if hold.holder = req.holder then s.put req.volumeID { hold with leaseExpiry := now + s.ttl }
        else (s, .error (.aborted hold))
      else s.put req.volumeID (s.newHold req now)

def renewExclusive (req : HoldRequest) (now : Nat) (s : Leases) : Leases × Except HoldError ExclusiveHold :=
  match req.check with
  | some e => (s, .error e)
  | none =>
    match s.exclusiveHolds.lookup req.volumeID with
    -- after a restart the table is empty
    | none => s.put req.volumeID (s.newHold req now)
    | some hold =>
      if hold.holder = req.holder then s.put req.volumeID { hold with leaseExpiry := now + s.ttl }
      else if now < hold.leaseExpiry then (s, .error (.failedPrecondition hold))
      else s.put req.volumeID (s.newHold req now)

/-- An empty mount stands for every mount of the node. -/
def releaseExclusive (req : HoldRequest) (now : Nat) (s : Leases) : Leases × Except HoldError Unit :=
  if req.volumeID = [] then (s, .error .volumeIDRequired)
  else if req.holder.nodeID = [] then (s, .error .nodeIDRequired)
  else
    match s.exclusiveHolds.lookup req.volumeID with
    | none => (s, .ok ())
    | some hold =>
      let dropped := { s with exclusiveHolds := s.exclusiveHolds.erase req.volumeID }
      if hold.holder.nodeID = req.holder.nodeID ∧ (req.holder.mountID = [] ∨ hold.holder.mountID = req.holder.mountID) then
        (dropped, .ok ())
      else if hold.leaseExpiry < now then (dropped, .ok ())
      else (s, .ok ())

end Leases

/-! Runs. -/

inductive HoldEvent where
  | acquire (req : HoldRequest) (now : Nat)
  | renew (req : HoldRequest) (now : Nat)
  | release (req : HoldRequest) (now : Nat)
  deriving DecidableEq, Repr

def HoldEvent.now : HoldEvent → Nat
  | .acquire _ now => now
  | .renew _ now => now
  | .release _ now => now

structure HoldState where
  server : Leases
  /-- the time of the last call -/
  clock : Nat := 0
  /-- the requests that `AcquireExclusive` and `RenewExclusive` have granted, newest first -/
  grants : List HoldRequest := []

namespace HoldState

/-- A call that may grant the request. -/
def call (req : HoldRequest) (result : Leases × Except HoldError ExclusiveHold) (s : HoldState) : HoldState :=
  { s with server := result.1, grants := if result.2.isOk then req :: s.grants else s.grants }

def step (s : HoldState) (e : HoldEvent) : Option HoldState :=
  if e.now < s.clock then none
  else
    let s := { s with clock := e.now }
    match e with
    | .acquire req now => some (s.call req (s.server.acquireExclusive req now))
    | .renew req now => some (s.call req (s.server.renewExclusive req now))
    | .release req now => some { s with server := (s.server.releaseExclusive req now).1 }

/-- The mounts that were granted the volume, newest first. -/
def holders (s : HoldState) (volumeID : Name) : List Holder :=
  (s.grants.filter fun req => req.volumeID = volumeID).map (·.holder)

/-- The mount was granted the volume, and another one was since then. -/
def Stale (s : HoldState) (req : HoldRequest) : Prop :=
  req.holder ∈ s.holders req.volumeID ∧ (s.holders req.volumeID).takeWhile (· ≠ req.holder) ≠ []

instance (s : HoldState) (req : HoldRequest) : Decidable (s.Stale req) := by
  unfold Stale
  infer_instance

/-- No stale mount renews. -/
def Fenced (s : HoldState) : HoldEvent → Prop
  | .renew req now => (s.server.renewExclusive req now).2.isOk = true → ¬ s.Stale req
  | _ => True

/-- There is a live lease on the volume when a stale mount renews. -/
def Contested (s : HoldState) : HoldEvent → Prop
  | .renew req now => s.Stale req → ∃ hold ∈ s.server.exclusiveHolds.lookup req.volumeID, now < hold.leaseExpiry
  | _ => True

instance (s : HoldState) (e : HoldEvent) : Decidable (s.Fenced e) := by
  unfold Fenced
  split <;> infer_instance

/-- The hold of a volume is of the last mount that was granted it, and only requests that
pass the checks are granted. -/
structure Tracked (s : HoldState) : Prop where
  last : ∀ volumeID hold, s.server.exclusiveHolds.lookup volumeID = some hold →
    (s.holders volumeID).head? = some hold.holder
  checked : ∀ req ∈ s.grants, req.check = none

end HoldState

/-! Calls. -/

section Calls

variable {s : Leases} {req : HoldRequest} {now : Nat}

/-- A call that grants the request leaves a hold of the mount; one that does not leaves the
table as it was. -/
def Leases.Grants (s : Leases) (req : HoldRequest) (result : Leases × Except HoldError ExclusiveHold) : Prop :=
  result.2.isOk = false ∧ result.1 = s ∨
    req.check = none ∧ ∃ hold, hold.holder = req.holder ∧ result = s.put req.volumeID hold

theorem Leases.grants_acquireExclusive : s.Grants req (s.acquireExclusive req now) := by
  unfold acquireExclusive
  cases hcheck : req.check with
  | some e => exact .inl ⟨rfl, rfl⟩
  | none =>
    cases hlookup : s.exclusiveHolds.lookup req.volumeID with
    | none => exact .inr ⟨hcheck, _, rfl, rfl⟩
    | some hold =>
      simp only
      split_ifs with hlive hsame
      · exact .inr ⟨hcheck, { hold with leaseExpiry := now + s.ttl }, hsame, rfl⟩
      · exact .inl ⟨rfl, rfl⟩
      · exact .inr ⟨hcheck, _, rfl, rfl⟩

theorem Leases.grants_renewExclusive : s.Grants req (s.renewExclusive req now) := by
  unfold renewExclusive
  cases hcheck : req.check with
  | some e => exact .inl ⟨rfl, rfl⟩
  | none =>
    cases hlookup : s.exclusiveHolds.lookup req.volumeID with
    | none => exact .inr ⟨hcheck, _, rfl, rfl⟩
    | some hold =>
      simp only
      split_ifs with hsame hlive
      · exact .inr ⟨hcheck, { hold with leaseExpiry := now + s.ttl }, hsame, rfl⟩
      · exact .inl ⟨rfl, rfl⟩
      · exact .inr ⟨hcheck, _, rfl, rfl⟩

/-- A renewal is refused while another mount has a live lease, and only then. -/
theorem Leases.renewExclusive_isOk (hcheck : req.check = none) :
    (s.renewExclusive req now).2.isOk = true ↔
      ∀ hold ∈ s.exclusiveHolds.lookup req.volumeID, now < hold.leaseExpiry → hold.holder = req.holder := by
  unfold renewExclusive
  rw [hcheck]
  cases hlookup : s.exclusiveHolds.lookup req.volumeID with
  | none => simp [put, Except.isOk, Except.toBool]
  | some hold =>
    by_cases hsame : hold.holder = req.holder
    · simp [hsame, put, Except.isOk, Except.toBool]
    · by_cases hlive : now < hold.leaseExpiry
      · simp [hsame, hlive, Except.isOk, Except.toBool]
      · simp [hsame, hlive, put, Except.isOk, Except.toBool]

/-- A release takes away the hold of the volume or nothing. -/
theorem Leases.lookup_releaseExclusive {volumeID : Name} {hold : ExclusiveHold}
    (h : (s.releaseExclusive req now).1.exclusiveHolds.lookup volumeID = some hold) :
    s.exclusiveHolds.lookup volumeID = some hold := by
  unfold releaseExclusive at h
  split at h
  · exact h
  split at h
  · exact h
  split at h
  · exact h
  simp only at h
  split at h
  · exact lookup_of_erase h
  split at h
  · exact lookup_of_erase h
  · exact h

end Calls

/-! The invariant. -/

namespace HoldState

variable {s s' : HoldState} {req : HoldRequest}

theorem holders_cons (volumeID : Name) (h : s'.grants = req :: s.grants) :
    s'.holders volumeID = if req.volumeID = volumeID then req.holder :: s.holders volumeID else s.holders volumeID := by
  unfold holders
  rw [h, filter_cons]
  by_cases hvolume : req.volumeID = volumeID <;> simp [hvolume]

section

variable (h : s.Tracked)
include h

theorem Tracked.call {result : Leases × Except HoldError ExclusiveHold}
    (hresult : s.server.Grants req result) : (s.call req result).Tracked := by
  obtain ⟨hfail, hsame⟩ | ⟨hcheck, hold, hholder, rfl⟩ := hresult
  · have heq : s.call req result = s := by simp [HoldState.call, hfail, hsame]
    rwa [heq]
  refine ⟨?_, ?_⟩
  · intro volumeID hold' hlookup
    have hgrants : (s.call req (s.server.put req.volumeID hold)).grants = req :: s.grants := rfl
    rw [holders_cons volumeID hgrants]
    have hinsert := hlookup.symm.trans (lookup_insert req.volumeID hold s.server.exclusiveHolds volumeID)
    by_cases hvolume : volumeID = req.volumeID
    · rw [if_pos hvolume] at hinsert
      rw [if_pos hvolume.symm, some.inj hinsert, hholder, head?_cons]
    · rw [if_neg hvolume] at hinsert
      rw [if_neg (Ne.symm hvolume)]
      exact h.last volumeID hold' hinsert.symm
  · intro req' hreq'
    cases hreq' with
    | head => exact hcheck
    | tail _ hmem => exact h.checked req' hmem

theorem Tracked.step {e : HoldEvent} (hs : s.step e = some s') : s'.Tracked := by
  unfold HoldState.step at hs
  split at hs
  · simp at hs
  have hclock : HoldState.Tracked { s with clock := e.now } := ⟨h.last, h.checked⟩
  cases e with
  | acquire req now =>
    cases hs
    exact hclock.call Leases.grants_acquireExclusive
  | renew req now =>
    cases hs
    exact hclock.call Leases.grants_renewExclusive
  | release req now =>
    cases hs
    exact ⟨fun volumeID hold hlookup => h.last volumeID hold (Leases.lookup_releaseExclusive hlookup), h.checked⟩

theorem Tracked.check_of_stale (hstale : s.Stale req) : req.check = none := by
  obtain ⟨granted, hgranted, hholder⟩ := mem_map.mp hstale.1
  obtain ⟨hmem, hvolume⟩ := mem_filter.mp hgranted
  have heq : granted = req := by
    cases granted
    cases req
    simp only at hholder
    simp only [decide_eq_true_eq] at hvolume
    rw [hholder, hvolume]
  exact heq ▸ h.checked granted hmem

theorem Tracked.holder_ne_of_stale (hstale : s.Stale req) {hold : ExclusiveHold}
    (hlookup : s.server.exclusiveHolds.lookup req.volumeID = some hold) : hold.holder ≠ req.holder := by
  intro hsame
  have hhead := h.last req.volumeID hold hlookup
  apply hstale.2
  cases hholders : s.holders req.volumeID with
  | nil => rfl
  | cons first rest =>
    rw [hholders, head?_cons] at hhead
    have hfirst : first = req.holder := (some.inj hhead).trans hsame
    rw [takeWhile_cons_of_neg (by simp [hfirst])]

/-- Who is stale is fenced off by a live lease, and by nothing else. -/
theorem Tracked.fenced_iff (e : HoldEvent) : s.Fenced e ↔ s.Contested e := by
  cases e with
  | acquire | release => exact Iff.rfl
  | renew req now =>
    have hiff : s.Stale req → ((s.server.renewExclusive req now).2.isOk = true ↔
        ¬ ∃ hold ∈ s.server.exclusiveHolds.lookup req.volumeID, now < hold.leaseExpiry) := by
      intro hstale
      rw [Leases.renewExclusive_isOk (h.check_of_stale hstale)]
      constructor
      · rintro hrefused ⟨hold, hlookup, hlive⟩
        exact h.holder_ne_of_stale hstale hlookup (hrefused hold hlookup hlive)
      · intro hnone hold hlookup hlive
        exact absurd ⟨hold, hlookup, hlive⟩ hnone
    constructor
    · intro hfenced hstale
      by_contra hnone
      exact hfenced ((hiff hstale).mpr hnone) hstale
    · intro hcontested hok hstale
      exact (hiff hstale).mp hok (hcontested hstale)

end

end HoldState

/-! Results. -/

/-- **No stale mount renews exactly if a stale mount calls only while a lease on the volume is
live.** In every run of a server that has just started, with any duration of the leases. -/
theorem renew_fenced_iff (ttl : Int) (events : List HoldEvent) :
    let s : HoldState := { server := { exclusiveLeaseTTL := ttl } }
    Runs.Allowed HoldState.step HoldState.Fenced s events ↔ Runs.Allowed HoldState.step HoldState.Contested s events := by
  have hinit : HoldState.Tracked { server := { exclusiveLeaseTTL := ttl } } :=
    ⟨fun _ _ h => absurd h (by simp), fun _ h => absurd h (by simp)⟩
  apply Runs.allowed_iff (I := HoldState.Tracked) _ events hinit
  intro s e s' h hs
  exact ⟨h.step hs, h.fenced_iff e⟩

/-- The first mount's lease expires, the second one is granted the volume and releases it or
lets its lease expire, and the first one renews. -/
theorem stale_renew_succeeds :
    let first : HoldRequest := { volumeID := [118], holder := { nodeID := [110], mountID := [97] } }
    let second : HoldRequest := { volumeID := [118], holder := { nodeID := [111], mountID := [98] } }
    let s : HoldState := { server := { exclusiveLeaseTTL := 10 } }
    ¬ Runs.Allowed HoldState.step HoldState.Fenced s
        [.acquire first 0, .acquire second 11, .release second 12, .renew first 13] ∧
      ¬ Runs.Allowed HoldState.step HoldState.Fenced s [.acquire first 0, .acquire second 11, .renew first 22] := by
  refine ⟨by decide +kernel, by decide +kernel⟩

/-- A call for another mount before the lease expires; a release without a mount is for all
mounts of the node. -/
def HoldState.Foreign (volumeID : Name) (hold : ExclusiveHold) (_ : HoldState) : HoldEvent → Prop
  | .acquire req now | .renew req now => now < hold.leaseExpiry ∧ (req.volumeID = volumeID → hold.holder ≠ req.holder)
  | .release req now => now < hold.leaseExpiry ∧ (req.volumeID = volumeID → hold.holder.nodeID = req.holder.nodeID →
      req.holder.mountID ≠ [] ∧ hold.holder.mountID ≠ req.holder.mountID)

/-- **A live lease excludes other mounts.** Until it expires, their calls do not touch the hold,
in any order and number. -/
theorem lease_excludes {volumeID : Name} {hold : ExclusiveHold} {s : HoldState}
    (h : s.server.exclusiveHolds.lookup volumeID = some hold) {events : List HoldEvent}
    (hrun : Runs.Allowed HoldState.step (HoldState.Foreign volumeID hold) s events) :
    Runs.Throughout HoldState.step (fun s => s.server.exclusiveHolds.lookup volumeID = some hold) s events := by
  refine hrun.throughout (fun _ h => h) ?_ h
  intro s e s' h hok hs
  obtain ⟨-, hs⟩ := Option.ite_none_left_eq_some.mp hs
  cases e with
  | acquire req now | renew req now | release req now =>
    cases hs
    obtain ⟨hnow, hother⟩ := hok
    simp only [HoldState.call, Leases.acquireExclusive, Leases.renewExclusive, Leases.releaseExclusive]
    split
    · exact h
    split
    all_goals grind [Leases.put, lookup_insert, lookup_erase]

/-- Another mount of the same node. -/
theorem lease_excludes_second :
    let s : HoldState := { server := { exclusiveHolds := .singleton [118] ⟨[118], ⟨[110], [97]⟩, 0, 10⟩ } }
    Runs.Throughout HoldState.step (fun s => s.server.exclusiveHolds.lookup [118] = some ⟨[118], ⟨[110], [97]⟩, 0, 10⟩) s
      [.acquire ⟨[118], ⟨[110], [98]⟩⟩ 5, .release ⟨[118], ⟨[110], [98]⟩⟩ 6] :=
  lease_excludes rfl ⟨⟨by decide, by decide⟩, ⟨by decide, by decide⟩, trivial⟩

end InClusterStorage.Controller
