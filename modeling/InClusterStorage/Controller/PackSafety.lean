import InClusterStorage.Lib.Runs
import InClusterStorage.Controller.Packs

/- What holds of the packs of a volume at all times.

   A pack that is not active has its final content (`Settled`). `Later` says what can happen
   to the packs of a volume over any number of sections: settled packs do not change, the
   active one only grows, and what is gone is in the backend. It has a parameter, the packs
   that may go. `Sound` is the invariant: the reference counts are those of the staged chunks,
   so that the packs of staged chunks are there, and what counts as uploaded is stored. -/
namespace InClusterStorage.Controller.Packs

open Table List

/-! Lookups. -/

theorem lookup_modifyInfo (packID : Nat) (f : PackInfo → PackInfo) (packs : PackTable) (p : Nat) :
    (modifyInfo packID f packs).lookup p = if p = packID then (packs.lookup p).map f else packs.lookup p := by
  rw [← lookup_modify, modifyInfo]
  cases packs.lookup packID <;> rfl

theorem IncrementalPack.readBlob_of_mem {p : IncrementalPack} {entry : BlobEntry} (h : entry ∈ p.entries) :
    p.readBlob entry ≠ none := by
  obtain ⟨blob, hblob, rfl⟩ := mem_map.mp h
  unfold IncrementalPack.readBlob
  rw [Ne, Option.map_eq_none_iff, find?_eq_none]
  intro hnone
  exact hnone blob hblob (decide_eq_true rfl)

theorem IncrementalPack.append_entries (codec : Codec) (fault : Option AppendStep) (data : List UInt8)
    (p : IncrementalPack) :
    (∀ entry ∈ p.entries, entry ∈ (p.append codec fault data).1.entries) ∧
      ∀ entry, (p.append codec fault data).2 = .ok entry → entry ∈ (p.append codec fault data).1.entries := by
  unfold IncrementalPack.append
  split
  · exact ⟨fun _ h => h, nofun⟩
  split
  case h_1 entry hfound =>
    refine ⟨fun _ h => h, fun e he => ?_⟩
    split at he <;> cases he
    exact mem_of_find?_eq_some hfound
  case h_2 =>
    split
    · exact ⟨fun _ h => h, nofun⟩
    split
    · exact ⟨fun _ h => h, nofun⟩
    split
    · exact ⟨fun _ h => h, nofun⟩
    refine ⟨fun e he => ?_, fun e he => ?_⟩
    · simp only [IncrementalPack.entries, map_append]
      exact mem_append_left _ he
    · split at he <;> cases he
      simp [IncrementalPack.entries]

namespace Volume

variable {v v' w : Volume} {E : Nat → Prop} {p : Nat} {info : PackInfo}

/-! Eviction. -/

/-- There is not enough space for that many bytes. -/
def Pressed (v : Volume) (neededBytes : Int) : Prop := v.config.maxStagingBytes < v.total + neededBytes

instance (v : Volume) (neededBytes : Int) : Decidable (v.Pressed neededBytes) := by
  unfold Pressed
  infer_instance

theorem mem_sorted (packs : PackTable) (test : PackInfo → Bool) :
    p ∈ ((packs.entries.filter fun e => test e.2).map Sigma.fst).insertionSort (· ≤ ·) ↔
      ∃ info, packs.lookup p = some info ∧ test info = true := by
  rw [mem_insertionSort, mem_map]
  constructor
  · rintro ⟨e, he, rfl⟩
    obtain ⟨hmem, htest⟩ := mem_filter.mp he
    exact ⟨e.2, mem_entries.mp hmem, htest⟩
  · rintro ⟨info, hlookup, htest⟩
    exact ⟨⟨p, info⟩, mem_filter.mpr ⟨mem_entries.mpr hlookup, htest⟩, rfl⟩

theorem mem_eligible : p ∈ v.eligible ↔ ∃ info, v.packs.lookup p = some info ∧ evictable info = true :=
  mem_sorted v.packs evictable

theorem lookup_evictLoop (maxStagingBytes neededBytes : Int) (ids : List Nat) (total : Int) (packs : PackTable) (p : Nat) :
    (evictLoop maxStagingBytes neededBytes ids total packs).lookup p = packs.lookup p ∨
      (evictLoop maxStagingBytes neededBytes ids total packs).lookup p = none ∧ p ∈ ids := by
  have herase (q : Nat) (packs : PackTable) : (packs.erase q).lookup p = packs.lookup p ∨
      (packs.erase q).lookup p = none ∧ p = q := by
    rw [lookup_erase]
    split
    case isTrue h => exact .inr ⟨rfl, h⟩
    case isFalse => exact .inl rfl
  induction ids generalizing total packs with
  | nil => exact .inl rfl
  | cons q ids ih =>
    simp only [evictLoop]
    split
    · obtain h | ⟨h, rfl⟩ := herase q packs
      · exact .inl h
      · exact .inr ⟨h, mem_cons_self⟩
    · obtain h | ⟨h, hmem⟩ := ih (total - ((packs.lookup q).map fun info => (info.pack.offset : Int)).getD 0)
        (packs.erase q)
      · obtain h' | ⟨h', rfl⟩ := herase q packs
        · exact .inl (h.trans h')
        · exact .inr ⟨h.trans h', mem_cons_self⟩
      · exact .inr ⟨h, mem_cons_of_mem q hmem⟩

/-- A pack goes only under pressure, if it is uploaded and nothing that is staged refers
to it. -/
theorem lookup_evict (neededBytes : Int) (v : Volume) (p : Nat) :
    (v.evictUploadedPacksLocked neededBytes).packs.lookup p = v.packs.lookup p ∨
      (v.evictUploadedPacksLocked neededBytes).packs.lookup p = none ∧ v.Pressed neededBytes ∧ p ∈ v.eligible := by
  unfold evictUploadedPacksLocked
  split
  · exact .inl rfl
  case isFalse h =>
    obtain ⟨hpressed, -⟩ := not_or.mp h
    obtain hsame | ⟨hnone, hmem⟩ := lookup_evictLoop v.config.maxStagingBytes neededBytes v.eligible v.total v.packs p
    · exact .inl hsame
    · exact .inr ⟨hnone, Int.not_le.mp hpressed, hmem⟩

theorem evict_eq (neededBytes : Int) (v : Volume) :
    ∃ packs, v.evictUploadedPacksLocked neededBytes = { v with packs } := by
  unfold evictUploadedPacksLocked
  split
  · exact ⟨v.packs, rfl⟩
  · exact ⟨_, rfl⟩

/-! What can happen to the packs. -/

/-- The pack exists or existed, and is not active. -/
def Settled (v : Volume) (p : Nat) : Prop := p ≤ v.nextPackID ∧ v.activePack ≠ some p

/-- What happens to the packs between two states; `E` are the packs that may go. -/
structure Later (E : Nat → Prop) (v v' : Volume) : Prop where
  config : v'.config = v.config
  stored : ∀ pack ∈ v.stored, pack ∈ v'.stored
  settled : ∀ p, v.Settled p → v'.Settled p
  frozen : ∀ p, v.Settled p → ∀ info', v'.packs.lookup p = some info' →
    ∃ info, v.packs.lookup p = some info ∧ info'.pack = info.pack
  kept : ∀ p info, v.packs.lookup p = some info →
    (∃ info', v'.packs.lookup p = some info' ∧ ∀ entry ∈ info.pack.entries, entry ∈ info'.pack.entries) ∨
      E p ∧ (v.config.blobStore = true → ∃ pack ∈ v'.stored, ∀ entry ∈ info.pack.entries, entry ∈ pack.entries)

def InBackend (v : Volume) (p : Nat) : Prop := ∀ info, v.packs.lookup p = some info → info.pack ∈ v.stored

/-- The pack of the reference is there, and has the chunk. -/
def Holds (v : Volume) (reference : StagedChunkReference) : Prop :=
  ∃ info, v.packs.lookup reference.packID = some info ∧ reference.entry ∈ info.pack.entries

theorem Holds.readStagedChunkBytes {reference : StagedChunkReference} (h : v.Holds reference) :
    v.readStagedChunkBytes reference ≠ none := by
  obtain ⟨info, hinfo, hentry⟩ := h
  unfold Volume.readStagedChunkBytes
  rw [hinfo, Option.bind_some]
  exact IncrementalPack.readBlob_of_mem hentry

def referencesIn (staged : StagedChunks) (p : Nat) : Nat :=
  Table.tally (fun _ reference => decide (reference.packID = p)) staged

/-- How many staged chunks are in the pack. -/
def references (v : Volume) (p : Nat) : Nat := referencesIn v.stagedChunks p

/-- The invariant. -/
structure Sound (v : Volume) : Prop where
  fresh : ∀ p info, v.packs.lookup p = some info → p ≤ v.nextPackID
  active : ∀ p, v.activePack = some p → ∃ info, v.packs.lookup p = some info ∧ info.state = .notStarted
  live : ∀ p info, v.packs.lookup p = some info → info.liveReferences = v.references p
  staged : ∀ key reference, v.stagedChunks.lookup key = some reference → v.Holds reference
  uploads : ∀ u ∈ v.uploads, v.Settled u.packID ∧ (u.result = some .stored → v.InBackend u.packID)
  stored : v.config.blobStore = true → ∀ p info, v.packs.lookup p = some info → info.state = .uploaded →
    info.pack ∈ v.stored

theorem Later.trans (h : Later E v v') (h' : Later E v' w) : Later E v w where
  config := h'.config.trans h.config
  stored pack hpack := h'.stored pack (h.stored pack hpack)
  settled p hp := h'.settled p (h.settled p hp)
  frozen p hp info' hinfo' := by
    obtain ⟨info₁, hinfo₁, heq₁⟩ := h'.frozen p (h.settled p hp) info' hinfo'
    obtain ⟨info, hinfo, heq⟩ := h.frozen p hp info₁ hinfo₁
    exact ⟨info, hinfo, heq₁.trans heq⟩
  kept p info hinfo := by
    obtain ⟨info₁, hinfo₁, hsub₁⟩ | ⟨hE, hstored⟩ := h.kept p info hinfo
    · obtain ⟨info₂, hinfo₂, hsub₂⟩ | ⟨hE, hstored⟩ := h'.kept p info₁ hinfo₁
      · exact .inl ⟨info₂, hinfo₂, fun entry hentry => hsub₂ entry (hsub₁ entry hentry)⟩
      · refine .inr ⟨hE, fun hblob => ?_⟩
        obtain ⟨pack, hpack, hsub⟩ := hstored (by rw [h.config]; exact hblob)
        exact ⟨pack, hpack, fun entry hentry => hsub entry (hsub₁ entry hentry)⟩
    · refine .inr ⟨hE, fun hblob => ?_⟩
      obtain ⟨pack, hpack, hsub⟩ := hstored hblob
      exact ⟨pack, h'.stored pack hpack, hsub⟩

theorem Later.of_packs (hconfig : v'.config = v.config) (hpacks : v'.packs = v.packs)
    (hstored : ∀ pack ∈ v.stored, pack ∈ v'.stored) (hsettled : ∀ p, v.Settled p → v'.Settled p) : Later E v v' where
  config := hconfig
  stored := hstored
  settled := hsettled
  frozen _ _ info h := ⟨info, hpacks ▸ h, rfl⟩
  kept _ info h := .inl ⟨info, hpacks ▸ h, fun _ h => h⟩

theorem Later.inBackend (h : Later E v v') (hp : v.Settled p) (hstored : v.InBackend p) : v'.InBackend p := by
  intro info' hinfo'
  obtain ⟨info, hinfo, heq⟩ := h.frozen p hp info' hinfo'
  rw [heq]
  exact h.stored _ (hstored info hinfo)

/-- A section that keeps the invariant, and what it does to the packs. -/
def Evolves (E : Nat → Prop) (v v' : Volume) : Prop := v'.Sound ∧ Later E v v'

theorem Evolves.refl (h : v.Sound) : Evolves E v v := ⟨h, .of_packs rfl rfl (fun _ h => h) fun _ h => h⟩

theorem Evolves.trans (h : Evolves E v v') (h' : v'.Sound → Evolves E v' w) : Evolves E v w :=
  ⟨(h' h.1).1, h.2.trans (h' h.1).2⟩

/-- A section beside a running sync. -/
def Stages (E : Nat → Prop) (v v' : Volume) : Prop := Evolves E v v' ∧ v'.sync = v.sync

theorem Stages.refl (h : v.Sound) : Stages E v v := ⟨.refl h, rfl⟩

theorem Stages.trans (h : Stages E v v') (h' : v'.Sound → Stages E v' w) : Stages E v w :=
  ⟨h.1.trans fun hs => (h' hs).1, (h' h.1.1).2.trans h.2⟩

theorem Sound.foldl {α : Type} {f : Volume → α → Volume} (hf : ∀ a v, v.Sound → Stages E v (f v a))
    {v : Volume} (h : v.Sound) (as : List α) : Stages E v (as.foldl f v) := by
  induction as generalizing v with
  | nil => exact .refl h
  | cons a as ih =>
    exact (hf a v h).trans fun h' => ih h'

theorem Sound.with_metadata (h : v.Sound) {stagedSizes inodes : AList fun _ : Nat => Nat} {sync : Option Sync} :
    Evolves E v { v with stagedSizes, inodes, sync } :=
  ⟨{ h with }, .of_packs rfl rfl (fun _ h => h) fun _ h => h⟩

/-! Sections that change packs. -/

/-- How a pack may change in a section after which these chunks are staged. -/
structure Changes (v : Volume) (staged : StagedChunks) (p : Nat) (info info' : PackInfo) : Prop where
  live : info'.liveReferences = referencesIn staged p
  entries : ∀ entry ∈ info.pack.entries, entry ∈ info'.pack.entries
  settled : v.activePack ≠ some p → info'.pack = info.pack
  active : v.activePack = some p → info.state = .notStarted → info'.state = .notStarted
  stored : v.config.blobStore = true → info'.state = .uploaded → info'.pack ∈ v.stored

section

variable (h : v.Sound)
include h

theorem Sound.unchanged (hp : v.packs.lookup p = some info) : v.Changes v.stagedChunks p info info :=
  ⟨h.live p info hp, fun _ h => h, fun _ => rfl, fun _ h => h, fun hblob => h.stored hblob p info hp⟩

/-- The known packs change, and some that can be evicted go. -/
theorem Sound.repack {packs : PackTable} {stagedChunks : StagedChunks} (change : Nat → PackInfo → PackInfo)
    (hlookup : ∀ p, packs.lookup p = (v.packs.lookup p).map (change p) ∨ packs.lookup p = none ∧ E p ∧
      ∀ info, v.packs.lookup p = some info → evictable (change p info) = true)
    (hchange : ∀ p info, v.packs.lookup p = some info → v.Changes stagedChunks p info (change p info))
    (hstaged : ∀ key reference, stagedChunks.lookup key = some reference → v.Holds reference)
    (stagedSizes : AList fun _ : Nat => Nat)
    (stagedBytes : Int) : Evolves E v { v with packs, stagedChunks, stagedSizes, stagedBytes } := by
  have hcases {p info'} (hp : packs.lookup p = some info') : ∃ info, v.packs.lookup p = some info ∧
      info' = change p info := by
    obtain heq | ⟨hnone, -⟩ := hlookup p
    · obtain ⟨info, hinfo, rfl⟩ := Option.map_eq_some_iff.mp (heq.symm.trans hp)
      exact ⟨info, hinfo, rfl⟩
    · exact nomatch hnone.symm.trans hp
  have hof {p info} (hp : v.packs.lookup p = some info) : packs.lookup p = some (change p info) ∨
      E p ∧ evictable (change p info) = true := by
    obtain heq | ⟨-, hE, hevictable⟩ := hlookup p
    · rw [hp] at heq
      exact .inl heq
    · exact .inr ⟨hE, hevictable info hp⟩
  have hlater : Later E v { v with packs, stagedChunks, stagedSizes, stagedBytes } := by
    refine ⟨rfl, fun _ h => h, fun _ h => h, fun p hp info' hinfo' => ?_, fun p info hinfo => ?_⟩
    · obtain ⟨info, hinfo, rfl⟩ := hcases hinfo'
      exact ⟨info, hinfo, (hchange p info hinfo).settled hp.2⟩
    · have hchanges := hchange p info hinfo
      obtain hkept | ⟨hE, hevictable⟩ := hof hinfo
      · exact .inl ⟨_, hkept, hchanges.entries⟩
      · have huploaded : (change p info).state = .uploaded := of_decide_eq_true (Bool.and_eq_true _ _ ▸ hevictable).1
        exact .inr ⟨hE, fun hblob => ⟨_, hchanges.stored hblob huploaded, hchanges.entries⟩⟩
  refine ⟨⟨?_, ?_, ?_, ?_, ?_, ?_⟩, hlater⟩
  · intro p info' hp
    obtain ⟨info, hinfo, -⟩ := hcases hp
    exact h.fresh p info hinfo
  · intro p hactive
    obtain ⟨info, hinfo, hstate⟩ := h.active p hactive
    replace hstate := (hchange p info hinfo).active hactive hstate
    obtain hkept | ⟨-, hevictable⟩ := hof hinfo
    · exact ⟨_, hkept, hstate⟩
    · simp [evictable, hstate] at hevictable
  · intro p info' hp
    obtain ⟨info, hinfo, rfl⟩ := hcases hp
    exact (hchange p info hinfo).live
  · intro key reference hkey
    obtain ⟨info, hinfo, hentry⟩ := hstaged key reference hkey
    have hchanges := hchange _ info hinfo
    obtain hkept | ⟨-, hevictable⟩ := hof hinfo
    · exact ⟨_, hkept, hchanges.entries _ hentry⟩
    -- a pack that a staged chunk refers to is not evicted
    have hpos : 0 < referencesIn stagedChunks reference.packID :=
      tally_pos.mpr ⟨key, reference, hkey, decide_eq_true rfl⟩
    simp only [evictable, hchanges.live, Bool.and_eq_true, decide_eq_true_eq] at hevictable
    omega
  · intro u hu
    obtain ⟨hsettled, hstored⟩ := h.uploads u hu
    exact ⟨hsettled, fun hresult => hlater.inBackend hsettled (hstored hresult)⟩
  · intro hblob p info' hp
    obtain ⟨info, hinfo, rfl⟩ := hcases hp
    exact (hchange p info hinfo).stored hblob

theorem Sound.evict {neededBytes : Int} (hE : v.Pressed neededBytes → ∀ p ∈ v.eligible, E p) :
    Stages E v (v.evictUploadedPacksLocked neededBytes) := by
  have hlookup := lookup_evict neededBytes v
  obtain ⟨packs, heq⟩ := evict_eq neededBytes v
  rw [heq] at hlookup ⊢
  refine ⟨h.repack (fun _ info => info) (fun p => ?_) (fun p info hp => h.unchanged hp)
      h.staged v.stagedSizes v.stagedBytes, rfl⟩
  obtain hsame | ⟨hnone, hpressed, hmem⟩ := hlookup p
  · rw [Option.map_id']
    exact .inl hsame
  refine .inr ⟨hnone, hE hpressed p hmem, fun info hinfo => ?_⟩
  obtain ⟨info', hinfo', hevictable⟩ := mem_eligible.mp hmem
  cases hinfo.symm.trans hinfo'
  exact hevictable

/-- What is known of a pack changes; only the active pack changes its content. -/
theorem Sound.modifyPack {f : PackInfo → PackInfo} (hlive : ∀ info, (f info).liveReferences = info.liveReferences)
    (hentries : ∀ info, v.packs.lookup p = some info → ∀ entry ∈ info.pack.entries, entry ∈ (f info).pack.entries)
    (hsettled : v.activePack ≠ some p → ∀ info, (f info).pack = info.pack)
    (hactive : v.activePack = some p → ∀ info, info.state = .notStarted → (f info).state = .notStarted)
    (hstored : v.config.blobStore = true → ∀ info, v.packs.lookup p = some info → (f info).state = .uploaded →
      (f info).pack ∈ v.stored) : Evolves E v (v.modifyPack p f) := by
  refine h.repack (fun q info => if q = p then f info else info) (fun q => .inl ?_) (fun q info hq => ?_) h.staged _ _
  · rw [lookup_modifyInfo]
    by_cases hqp : q = p <;> simp [hqp]
  · by_cases hqp : q = p
    · subst hqp
      rw [if_pos rfl]
      exact ⟨(hlive info).trans (h.live q info hq), hentries info hq, fun hne => hsettled hne info,
        fun heq => hactive heq info, fun hblob => hstored hblob info hq⟩
    · rw [if_neg hqp]
      exact h.unchanged hq

theorem Sound.modifyActive (hp : v.activePack = some p) (f : IncrementalPack → IncrementalPack)
    (hentries : ∀ info, v.packs.lookup p = some info → ∀ entry ∈ info.pack.entries, entry ∈ (f info.pack).entries) :
    Evolves E v (v.modifyPack p fun info => { info with pack := f info.pack }) := by
  obtain ⟨info, hinfo, hstate⟩ := h.active p hp
  refine h.modifyPack (fun _ => rfl) hentries (fun hne => absurd hp hne) (fun _ _ h => h) ?_
  intro _ info' hinfo' huploaded
  obtain rfl := Option.some.inj (hinfo.symm.trans hinfo')
  exact absurd (hstate.symm.trans huploaded) (by simp)

theorem Sound.setState {state : PackState} (hp : v.Settled p)
    (hstored : v.config.blobStore = true → state = .uploaded → v.InBackend p) : Evolves E v (v.setState p state) :=
  h.modifyPack (fun _ => rfl) (fun _ _ _ h => h) (fun _ _ => rfl) (fun hactive => absurd hactive hp.2)
    fun hblob info hinfo hstate => hstored hblob hstate info hinfo

theorem Sound.renumber {active : Option Nat} {next : Nat} (hactive : active = v.activePack ∨ active = none)
    (hnext : v.nextPackID ≤ next) : Evolves E v { v with activePack := active, nextPackID := next } := by
  have hsettled (p) (hp : v.Settled p) : Settled { v with activePack := active, nextPackID := next } p := by
    refine ⟨hp.1.trans hnext, ?_⟩
    obtain rfl | rfl := hactive
    · exact hp.2
    · nofun
  refine ⟨⟨fun p info hp => (h.fresh p info hp).trans hnext, fun p hp => ?_, h.live, h.staged,
    fun u hu => ⟨hsettled _ (h.uploads u hu).1, (h.uploads u hu).2⟩, h.stored⟩, .of_packs rfl rfl (fun _ h => h) hsettled⟩
  obtain rfl | rfl := hactive
  · exact h.active p hp
  · cases hp

/-- The next pack is there, and active. -/
abbrev opened (v : Volume) : Volume :=
  { v with
    nextPackID := v.nextPackID + 1
    activePack := some (v.nextPackID + 1)
    packs := v.packs.insert (v.nextPackID + 1) { pack := .new defaultPackSlots } }

theorem Sound.openPack : Evolves E v v.opened := by
  have hsame {p} (hp : p ≤ v.nextPackID) : v.opened.packs.lookup p = v.packs.lookup p := by
    rw [lookup_insert, if_neg (by omega)]
  have hold {p info} (hp : v.packs.lookup p = some info) := (hsame (h.fresh p info hp)).trans hp
  have hlater : Later E v v.opened := by
    refine ⟨rfl, fun _ h => h, fun p hp => ⟨Nat.le_succ_of_le hp.1, fun heq => ?_⟩, ?_, ?_⟩
    · have := hp.1
      cases heq
      omega
    · exact fun p hp info' hinfo' => ⟨info', (hsame hp.1).symm.trans hinfo', rfl⟩
    · exact fun p info hinfo => .inl ⟨info, hold hinfo, fun _ h => h⟩
  refine ⟨⟨?_, ?_, ?_, ?_, ?_, ?_⟩, hlater⟩
  · exact forall_insert le_rfl fun p info hp => Nat.le_succ_of_le (h.fresh p info hp)
  · rintro p ⟨⟩
    exact ⟨_, AList.lookup_insert _, rfl⟩
  · -- no staged chunk is in a pack that was not there
    have hzero : v.references (v.nextPackID + 1) = 0 := by
      rw [references, referencesIn, tally_eq_zero]
      intro key reference hstaged
      obtain ⟨info, hinfo, -⟩ := h.staged key reference hstaged
      have := h.fresh _ _ hinfo
      exact decide_eq_false (by omega)
    exact forall_insert (congrArg Int.ofNat hzero.symm) h.live
  · intro key reference hstaged
    obtain ⟨info, hinfo, hentry⟩ := h.staged key reference hstaged
    exact ⟨info, hold hinfo, hentry⟩
  · intro u hu
    obtain ⟨hsettled, hstored⟩ := h.uploads u hu
    exact ⟨hlater.settled _ hsettled, fun hresult => hlater.inBackend hsettled (hstored hresult)⟩
  · exact fun hblob => forall_insert nofun (h.stored hblob)

theorem Sound.setUploads {uploads : List Upload}
    (huploads : ∀ u ∈ uploads, v.Settled u.packID ∧ (u.result = some .stored → v.InBackend u.packID)) :
    Evolves E v { v with uploads } :=
  ⟨{ h with uploads := huploads }, .of_packs rfl rfl (fun _ h => h) fun _ h => h⟩

theorem Sound.addUpload (hp : v.Settled p) : Evolves E v { v with uploads := v.uploads ++ [{ packID := p }] } := by
  refine h.setUploads fun u hu => ?_
  obtain hu | hu := mem_append.mp hu
  · exact h.uploads u hu
  · cases mem_singleton.mp hu
    exact ⟨hp, nofun⟩

theorem Sound.startPackUploadLocked (hp : v.Settled p) : Stages E v (v.startPackUploadLocked p) := by
  unfold Volume.startPackUploadLocked
  cases hlookup : v.packs.lookup p with
  | none => exact .refl h
  | some info =>
    simp only
    split_ifs with hblob
    · exact ⟨h.setState hp fun hblob' => absurd (hblob'.symm.trans hblob) (by simp), rfl⟩
    · exact .refl h
    · have hstate : Evolves E v (v.setState p .uploading) := h.setState hp nofun
      exact ⟨hstate.trans fun h' => h'.addUpload (hstate.2.settled p hp), rfl⟩

/-! Chunks. -/

omit h in
theorem lookup_startPackUploadLocked (p q : Nat) (v : Volume) :
    ((v.startPackUploadLocked p).packs.lookup q).map (·.pack) = (v.packs.lookup q).map (·.pack) := by
  have hstate (state) : ((v.setState p state).packs.lookup q).map (·.pack) = (v.packs.lookup q).map (·.pack) := by
    show ((modifyInfo p _ v.packs).lookup q).map (·.pack) = _
    rw [lookup_modifyInfo]
    split
    · rw [Option.map_map]
      rfl
    · rfl
  unfold startPackUploadLocked
  split
  · rfl
  split
  · exact hstate _
  split
  · rfl
  · exact hstate _

theorem Sound.appendToActive (fault : Option AppendStep) (data : List UInt8) (hp : v.activePack = some p) :
    Stages E v (v.appendToActive fault data p).1 ∧
      ∀ reference, (v.appendToActive fault data p).2 = .ok reference →
        (v.appendToActive fault data p).1.Holds reference := by
  unfold Volume.appendToActive
  obtain ⟨info, hinfo, hstate⟩ := h.active p hp
  rw [hinfo]
  simp only
  obtain ⟨hkept, hnew⟩ := info.pack.append_entries v.config.codec fault data
  set appended := info.pack.append v.config.codec fault data
  set grown := v.modifyPack p fun info => { info with pack := appended.1 } with hgrown
  have hevolves : Evolves E v grown := by
    refine h.modifyActive hp (fun _ => appended.1) fun info' hinfo' => ?_
    obtain rfl := Option.some.inj (hinfo.symm.trans hinfo')
    exact hkept
  have hlookup : grown.packs.lookup p = some { info with pack := appended.1 } := by
    show (modifyInfo p _ v.packs).lookup p = _
    rw [lookup_modifyInfo, if_pos rfl, hinfo, Option.map_some]
  split
  case h_1 e herror => exact ⟨⟨hevolves, rfl⟩, nofun⟩
  case h_2 entry hok =>
    split
    case isFalse =>
      refine ⟨⟨hevolves, rfl⟩, fun reference href => ?_⟩
      cases href
      exact ⟨_, hlookup, hnew entry hok⟩
    case isTrue =>
      split
      · exact ⟨⟨hevolves, rfl⟩, nofun⟩
      -- the pack is full: it is sealed and its upload starts
      set done := grown.modifyPack p fun info => { info with pack := { info.pack with isSealed := true } } with hdone
      have hdone' : Evolves E grown done :=
        hevolves.1.modifyActive hp (fun pack => { pack with isSealed := true }) fun _ _ _ h => h
      have hsealed : Stages E v { done with activePack := none } :=
        ⟨(hevolves.trans fun _ => hdone').trans fun h' => h'.renumber (.inr rfl) le_rfl, rfl⟩
      have hsettled : Settled { done with activePack := none } p := ⟨h.fresh p info hinfo, nofun⟩
      refine ⟨hsealed.trans fun h' => h'.startPackUploadLocked hsettled, fun reference href => ?_⟩
      · cases href
        have hpack := lookup_startPackUploadLocked p p { done with activePack := none }
        have hlookup' : done.packs.lookup p = some { info with pack := { appended.1 with isSealed := true } } := by
          show (modifyInfo p _ grown.packs).lookup p = _
          rw [lookup_modifyInfo, if_pos rfl, hlookup, Option.map_some]
        obtain ⟨info', hinfo', heq⟩ := Option.map_eq_some_iff.mp (hpack.trans (congrArg (Option.map (·.pack)) hlookup'))
        refine ⟨info', hinfo', ?_⟩
        rw [heq]
        exact hnew entry hok

theorem Sound.appendChunkLocked (fault : Option AppendStep) (data : List UInt8)
    (hE : v.Pressed data.length → ∀ p ∈ v.eligible, E p) :
    Stages E v (v.appendChunkLocked fault data).1 ∧
      ∀ reference, (v.appendChunkLocked fault data).2 = .ok reference →
        (v.appendChunkLocked fault data).1.Holds reference := by
  have hevict := h.evict hE
  unfold Volume.appendChunkLocked
  simp only
  generalize v.evictUploadedPacksLocked data.length = w at hevict
  split
  case h_1 p hp =>
    obtain ⟨hstages, hholds⟩ := hevict.1.1.appendToActive fault data hp
    exact ⟨hevict.trans fun _ => hstages, hholds⟩
  case h_2 =>
    split
    · exact ⟨hevict.trans fun h' => ⟨h'.renumber (.inl rfl) (Nat.le_succ _), rfl⟩, nofun⟩
    · have hopen := hevict.trans fun h' => ⟨h'.openPack, rfl⟩
      obtain ⟨hstages, hholds⟩ := hopen.1.1.appendToActive fault data rfl
      exact ⟨hopen.trans fun _ => hstages, hholds⟩

/-- Chunks are staged and dropped, and the packs count them. -/
theorem Sound.restage {packs : PackTable} {stagedChunks : StagedChunks} (d : Nat → Int)
    (hpacks : ∀ p, packs.lookup p =
      (v.packs.lookup p).map fun info => { info with liveReferences := info.liveReferences + d p })
    (hcount : ∀ p, (referencesIn stagedChunks p : Int) = v.references p + d p)
    (hstaged : ∀ key reference, stagedChunks.lookup key = some reference → v.Holds reference)
    (stagedSizes : AList fun _ : Nat => Nat)
    (stagedBytes : Int) :
    Stages E v { v with packs, stagedChunks, stagedSizes, stagedBytes } := by
  refine ⟨h.repack _ (fun p => .inl (hpacks p)) (fun p info hp => ?_) hstaged _ _, rfl⟩
  refine ⟨?_, fun _ h => h, fun _ => rfl, fun _ h => h, fun hblob => h.stored hblob p info hp⟩
  rw [hcount, ← h.live p info hp]

omit h in
theorem lookup_modifyLive (packID : Nat) (d : Int) (packs : PackTable) (p : Nat) :
    (modifyInfo packID (fun info => { info with liveReferences := info.liveReferences + d }) packs).lookup p =
      (packs.lookup p).map fun info =>
        { info with liveReferences := info.liveReferences + if packID = p then d else 0 } := by
  rw [lookup_modifyInfo]
  by_cases hp : p = packID
  · rw [if_pos hp, if_pos hp.symm]
  · rw [if_neg hp, if_neg (Ne.symm hp)]
    simp

omit h in
theorem references_eq {key : Nat × Nat} {existing : StagedChunkReference} (h : v.stagedChunks.lookup key = some existing)
    (p : Nat) :
    (v.references p : Int) = referencesIn (v.stagedChunks.erase key) p + if existing.packID = p then 1 else 0 := by
  unfold references referencesIn
  rw [tally_erase _ h]
  by_cases hp : existing.packID = p <;> simp [hp]

theorem Sound.setStagedChunkLocked {reference : StagedChunkReference} (ino index : Nat)
    (hholds : v.Holds reference) : Stages E v (v.setStagedChunkLocked ino index reference) := by
  have hlookup : ∀ key current, (v.stagedChunks.insert (ino, index) reference).lookup key = some current →
      v.Holds current :=
    forall_insert hholds h.staged
  unfold Volume.setStagedChunkLocked
  cases hexisting : v.stagedChunks.lookup (ino, index) with
  | none =>
    refine h.restage (fun p => if reference.packID = p then 1 else 0)
        (lookup_modifyLive reference.packID 1 v.packs) ?_ hlookup
      v.stagedSizes _
    intro p
    unfold references referencesIn
    rw [tally_insert_of_none _ _ hexisting]
    by_cases hp : reference.packID = p <;> simp [hp]
  | some existing =>
    refine h.restage (fun p => (if existing.packID = p then -1 else 0) + if reference.packID = p then 1 else 0)
        ?_ ?_ hlookup
      v.stagedSizes _
    · intro p
      have hadd := lookup_modifyLive reference.packID 1
        (modifyInfo existing.packID (fun info => { info with liveReferences := info.liveReferences + -1 }) v.packs) p
      refine hadd.trans ?_
      rw [lookup_modifyLive existing.packID (-1) v.packs p, Option.map_map]
      congr 1
      funext info
      simp [Int.add_assoc]
    · intro p
      rw [references_eq hexisting]
      unfold referencesIn
      rw [tally_insert]
      by_cases hnew : reference.packID = p
      · simp only [hnew, decide_true, if_true]
        split <;> omega
      · simp only [hnew, decide_false, Bool.false_eq_true, if_false]
        split <;> omega

theorem Sound.dropStagedChunkLocked (ino index : Nat) : Stages E v (v.dropStagedChunkLocked ino index) := by
  unfold Volume.dropStagedChunkLocked
  cases hexisting : v.stagedChunks.lookup (ino, index) with
  | none => exact .refl h
  | some existing =>
    have hdrop (stagedSizes) : Stages E v { v with
        packs := modifyInfo existing.packID (fun info => { info with liveReferences := info.liveReferences + -1 }) v.packs
        stagedChunks := v.stagedChunks.erase (ino, index)
        stagedSizes
        stagedBytes := v.stagedBytes - existing.length } := by
      refine h.restage (fun p => if existing.packID = p then -1 else 0) (lookup_modifyLive existing.packID (-1) v.packs)
        (fun p => ?_) ?_ _ _
      · rw [references_eq hexisting]
        split <;> omega
      · exact fun key current hkey => h.staged key current (lookup_of_erase hkey)
    simp only
    split
    · exact hdrop v.stagedSizes
    · exact hdrop (v.stagedSizes.erase ino)

theorem Sound.stageChunk (ino index : Nat) (fault : Option AppendStep) {data : List UInt8}
    (hE : v.Pressed data.length → ∀ p ∈ v.eligible, E p) : Stages E v (v.stageChunk ino index fault data).1 := by
  obtain ⟨hstages, hholds⟩ := h.appendChunkLocked fault data hE
  unfold Volume.stageChunk
  generalize v.appendChunkLocked fault data = result at hstages hholds
  obtain ⟨w, e | reference⟩ := result
  · exact hstages
  · exact hstages.trans fun h' => h'.setStagedChunkLocked ino index (hholds reference rfl)

/-- No pack goes that must not when the chunk is appended in its new form. -/
def RewriteCalm (E : Nat → Prop) (v : Volume) (ino index : Nat) (modify : List UInt8 → List UInt8) : Prop :=
  ∀ existing ∈ v.stagedChunks.lookup (ino, index), ∀ data ∈ v.readStagedChunkBytes existing,
    v.Pressed (modify data).length → ∀ p ∈ v.eligible, E p

theorem Sound.rewriteStagedChunkLocked {ino index : Nat} (fault : Option AppendStep)
    {modify : List UInt8 → List UInt8} (hE : RewriteCalm E v ino index modify) :
    Stages E v (v.rewriteStagedChunkLocked ino index fault modify).1 := by
  unfold Volume.rewriteStagedChunkLocked
  cases hexisting : v.stagedChunks.lookup (ino, index) with
  | none => exact .refl h
  | some existing =>
    simp only
    cases hdata : v.readStagedChunkBytes existing with
    | none => exact .refl h
    | some data => exact h.stageChunk ino index fault (hE existing hexisting data hdata)

/-- The condition holds before each round of the loop. -/
def Along {α : Type} (ok : α → Volume → Prop) (f : α → Volume → Volume × Option StageError) : List α → Volume → Prop
  | [], _ => True
  | a :: rest, v => ok a v ∧ ((f a v).2 = none → Along ok f rest (f a v).1)

omit h in
theorem Sound.stageAll {α : Type} {ok : α → Volume → Prop} {f : α → Volume → Volume × Option StageError}
    (hf : ∀ a v, v.Sound → ok a v → Stages E v (f a v).1) {as : List α} {v : Volume} (h : v.Sound)
    (hok : Along ok f as v) : Stages E v (stageAll f as v).1 := by
  induction as generalizing v with
  | nil => exact .refl h
  | cons a rest ih =>
    have hround := hf a v h hok.1
    have hrest := hok.2
    unfold Volume.stageAll
    generalize f a v = result at hround hrest
    obtain ⟨w, _ | e⟩ := result
    · exact hround.trans fun h' => ih h' (hrest rfl)
    · exact hround

/-- The packs that may go when a chunk is written. -/
def WriteCalm (E : Nat → Prop) (w : ChunkWrite) (v : Volume) : Prop := v.Pressed w.data.length → ∀ p ∈ v.eligible, E p

theorem Sound.writeChunk (ino : Nat) {w : ChunkWrite} (hE : WriteCalm E w v) : Stages E v (v.writeChunk ino w).1 := by
  unfold Volume.writeChunk
  split
  · exact h.stageChunk ino w.index w.fault hE
  · exact h.rewriteStagedChunkLocked w.fault fun _ _ _ _ => hE

theorem Sound.writeFile {ino dataLength : Nat} {chunks : List ChunkWrite} (size : Nat)
    (hE : Along (WriteCalm E) (Volume.writeChunk ino) chunks v) :
    Stages E v (v.writeFile ino dataLength chunks size).1 := by
  unfold Volume.writeFile
  split
  · exact .refl h
  have hall : Stages E v (Volume.stageAll (Volume.writeChunk ino) chunks v).1 :=
    Sound.stageAll (fun _ _ h hok => h.writeChunk ino hok) h hE
  generalize Volume.stageAll (Volume.writeChunk ino) chunks v = result at hall
  obtain ⟨w, _ | e⟩ := result
  · exact hall.trans fun h' => ⟨h'.with_metadata, rfl⟩
  · exact hall

/-- The packs that may go when a chunk is cut. -/
def TruncateCalm (E : Nat → Prop) (ino size : Nat) (chunk : Nat × Option AppendStep) (v : Volume) : Prop :=
  RewriteCalm E v ino chunk.1 fun data => data.take (size - chunk.1 * v.volumeChunkSize)

theorem Sound.truncateChunk {ino size : Nat} {chunk : Nat × Option AppendStep}
    (hE : TruncateCalm E ino size chunk v) : Stages E v (v.truncateChunk ino size chunk).1 := by
  unfold Volume.truncateChunk
  split
  · exact .refl h
  simp only
  split
  · exact h.dropStagedChunkLocked ino chunk.1
  split
  · exact h.rewriteStagedChunkLocked chunk.2 hE
  · exact .refl h

theorem Sound.truncateFile {ino size : Nat} {order : List (Nat × Option AppendStep)}
    (hE : Along (TruncateCalm E ino size) (Volume.truncateChunk ino size) order v) :
    Stages E v (v.truncateFile ino size order).1 := by
  unfold Volume.truncateFile
  have hall : Stages E v (Volume.stageAll (Volume.truncateChunk ino size) order v).1 :=
    Sound.stageAll (fun _ _ h hok => h.truncateChunk hok) h hE
  generalize Volume.stageAll (Volume.truncateChunk ino size) order v = result at hall
  obtain ⟨w, _ | e⟩ := result
  · simp only
    split
    · exact hall.trans fun h' => ⟨h'.with_metadata, rfl⟩
    · exact hall
  · exact hall

theorem Sound.dropStagedChunksLocked (ino : Nat) : Stages E v (v.dropStagedChunksLocked ino) :=
  h.foldl (fun index _ h' => h'.dropStagedChunkLocked ino index) (v.stagedIndices ino)

theorem Sound.setInode (ino : Nat) (size : Option Nat) : Stages E v (v.setInode ino size) := by
  cases size with
  | none | some size => exact ⟨h.with_metadata, rfl⟩

omit h in
theorem Sound.new (config : Config) (inodes : AList fun _ : Nat => Nat) : Sound { config, inodes } :=
  ⟨by simp, by simp, by simp, by simp, by simp, by simp⟩

/-! Uploads. -/

theorem Sound.addStored (pack : IncrementalPack) : Evolves E v { v with stored := v.stored ++ [pack] } := by
  have hmem : ∀ pack' ∈ v.stored, pack' ∈ v.stored ++ [pack] := fun _ h => mem_append_left _ h
  refine ⟨⟨h.fresh, h.active, h.live, h.staged, ?_, fun hblob p info hp hstate => hmem _ (h.stored hblob p info hp hstate)⟩,
    .of_packs rfl rfl hmem fun _ h => h⟩
  exact fun u hu => ⟨(h.uploads u hu).1, fun hresult info hinfo => hmem _ ((h.uploads u hu).2 hresult info hinfo)⟩

theorem Sound.uploadPackFile (p : Nat) (ok : Bool) :
    Stages E v (v.uploadPackFile p ok).1 ∧ (v.uploadPackFile p ok).1.uploads = v.uploads ∧
      ((v.uploadPackFile p ok).2 = true → (v.uploadPackFile p ok).1.InBackend p) := by
  unfold Volume.uploadPackFile
  cases hlookup : v.packs.lookup p with
  | none => exact ⟨.refl h, rfl, nofun⟩
  | some info =>
    simp only
    split
    · refine ⟨⟨h.addStored info.pack, rfl⟩, rfl, fun _ info' hinfo' => ?_⟩
      cases hlookup.symm.trans hinfo'
      exact mem_append_right _ mem_cons_self
    · exact ⟨.refl h, rfl, nofun⟩

theorem Sound.runUpload {i : Nat} {result : UploadResult} (hrun : v.runUpload i result = some v') : Stages E v v' := by
  unfold Volume.runUpload at hrun
  split at hrun
  case h_2 => cases hrun
  case h_1 packID hget =>
    cases hrun
    obtain ⟨hstages, huploads, hstored⟩ := h.uploadPackFile (E := E) packID (result = .stored)
    have hu := h.uploads _ (mem_of_getElem? hget)
    generalize v.uploadPackFile packID (result = .stored) = uploaded at hstages huploads hstored
    refine hstages.trans fun h' => ⟨h'.setUploads ?_, rfl⟩
    intro u hmem
    obtain hmem | rfl := mem_or_eq_of_mem_set hmem
    · exact h'.uploads u (huploads ▸ hmem)
    refine ⟨hstages.1.2.settled packID hu.1, fun hresult => hstored ?_⟩
    by_contra hfalse
    by_cases hst : result = .stored
    · simp [hfalse, hst] at hresult
    · simp [hst] at hresult

theorem Sound.endUpload {i : Nat} (hend : v.endUpload i = some v') : Stages E v v' := by
  obtain ⟨u, hget, rfl⟩ := Option.map_eq_some_iff.mp hend
  have hu := h.uploads u (mem_of_getElem? hget)
  have hstate : Evolves E v (v.setState u.packID (u.result.getD .cancelled).state) := by
    refine h.setState hu.1 fun _ huploaded => hu.2 ?_
    cases hresult : u.result with
    | none => rw [hresult] at huploaded; cases huploaded
    | some result =>
      rw [hresult] at huploaded
      cases result with
      | stored => rfl
      | failed | cancelled => cases huploaded
  refine ⟨hstate.trans fun h' => h'.setUploads fun u' hu' => ?_, rfl⟩
  exact h'.uploads u' (mem_of_mem_eraseIdx hu')

end

/-! Syncs. -/

/-- The packs that a sync has to upload yet. -/
def packIDs : SyncPhase → List Nat
  | .uploading ids => ids
  | .storing p rest => p :: rest
  | .stored p _ rest => p :: rest
  | _ => []

/-- They do not change, and the one that was uploaded last is stored. -/
structure SyncSound (v : Volume) (sync : Sync) : Prop where
  settled : ∀ p ∈ packIDs sync.phase, v.Settled p
  stored : ∀ p rest, sync.phase = .stored p true rest → v.InBackend p

variable {sync : Sync}

theorem Later.syncSound (h : Later E v v') (hsync : v.SyncSound sync) : v'.SyncSound sync := by
  refine ⟨fun p hp => h.settled p (hsync.settled p hp), fun p rest hphase => ?_⟩
  exact h.inBackend (hsync.settled p (by rw [hphase]; exact mem_cons_self)) (hsync.stored p rest hphase)

theorem Sound.setPhase (h : v.Sound) (sync : Sync) (phase : SyncPhase) : Evolves E v (v.setPhase sync phase) :=
  h.with_metadata

theorem Sound.sealActivePackLocked (h : v.Sound) :
    Evolves E v v.sealActivePackLocked ∧ v.sealActivePackLocked.activePack = none := by
  unfold Volume.sealActivePackLocked
  cases hactive : v.activePack with
  | none => exact ⟨.refl h, hactive⟩
  | some p =>
    have hmodify : Evolves E v (v.modifyPack p fun info => { info with pack := { info.pack with isSealed := true } }) :=
      h.modifyActive hactive (fun pack => { pack with isSealed := true }) fun _ _ _ h => h
    exact ⟨hmodify.trans fun h' => h'.renumber (.inr rfl) le_rfl, rfl⟩

theorem mem_packIDsToUpload : p ∈ v.packIDsToUpload ↔ ∃ info, v.packs.lookup p = some info ∧ info.state ≠ .uploaded := by
  refine (mem_sorted v.packs fun info => info.state ≠ .uploaded).trans ?_
  simp only [decide_eq_true_eq]

/-- How a sync starts: with all staged chunks that pass the filter, and the packs that are
not uploaded, or with nothing to do. -/
inductive Starts (v' : Volume) (sync : Sync) : Prop
  | uploading (hphase : sync.phase = .uploading v'.packIDsToUpload)
      (hchunks : ∀ e ∈ sync.snapshotChunks, v'.stagedChunks.lookup e.1 = some e.2)
  | finishing {err : Option SyncError} (hphase : sync.phase = .finishing err) (herr : err ≠ some .stagedPackNotFound)

theorem Sound.executeSyncLocked (h : v.Sound) (sealOk : Bool) (inodeFilter : Option (List Nat)) :
    Evolves E v (v.executeSyncLocked sealOk inodeFilter) ∧
      ∃ sync, (v.executeSyncLocked sealOk inodeFilter).sync = some sync ∧
      (v.executeSyncLocked sealOk inodeFilter).SyncSound sync ∧ Starts (v.executeSyncLocked sealOk inodeFilter) sync := by
  have hfinishing : ∀ (w : Volume) (err : Option SyncError), w.SyncSound { phase := .finishing err } :=
    fun _ _ => ⟨nofun, nofun⟩
  unfold Volume.executeSyncLocked
  split
  · exact ⟨h.with_metadata, _, rfl, hfinishing _ _, .finishing rfl (by simp)⟩
  obtain ⟨hseal, hactive⟩ := h.sealActivePackLocked (E := E)
  generalize v.sealActivePackLocked = w at hseal hactive
  simp only
  split
  · refine ⟨hseal.trans fun h' => h'.with_metadata, _, rfl, hfinishing _ _, .finishing rfl (by simp)⟩
  refine ⟨hseal.trans fun h' => h'.with_metadata, _, rfl, ⟨?_, nofun⟩, .uploading rfl ?_⟩
  · intro p hp
    obtain ⟨info, hinfo, -⟩ := mem_packIDsToUpload.mp (show p ∈ w.packIDsToUpload from hp)
    exact ⟨hseal.1.fresh p info hinfo, fun h => nomatch hactive.symm.trans h⟩
  · exact fun e he => mem_entries.mp (mem_filter.mp he).1

/-- What a sync can do in a step before `finishSync`. -/
inductive Transition (v : Volume) (sync : Sync) (v' : Volume) : SyncPhase → Prop
  | skip {p : Nat} {rest : List Nat} (h : sync.phase = .uploading (p :: rest))
      (hdone : v.config.blobStore = true → ∀ info, v.packs.lookup p = some info → info.state = .uploaded) :
      Transition v sync v' (.uploading rest)
  | store {p : Nat} {rest : List Nat} (h : sync.phase = .uploading (p :: rest)) : Transition v sync v' (.storing p rest)
  | stored {p : Nat} {rest : List Nat} {ok : Bool} (h : sync.phase = .storing p rest)
      (hstored : ok = true → v'.InBackend p) :
      Transition v sync v' (.stored p ok rest)
  | next {p : Nat} {rest : List Nat} (h : sync.phase = .stored p true rest) : Transition v sync v' (.uploading rest)
  | load (h : sync.phase = .uploading []) : Transition v sync v' (.appending sync.inodes [])
  | row {inodes inodes' : List Nat} {rows : List SyncRows} {row : SyncRows} {ino : Nat}
      (h : sync.phase = .appending inodes rows) (hrow : v.syncRows sync ino = .ok row) :
      Transition v sync v' (.appending inodes' (rows ++ [row]))
  | finish {err : Option SyncError}
      (h : err = some .stagedPackNotFound → ∃ inodes rows, sync.phase = .appending inodes rows ∧
        ∃ e ∈ sync.snapshotChunks, v.readStagedChunkBytes e.2 = none) : Transition v sync v' (.finishing err)

/-- The digests that are committed are those of the snapshot. -/
theorem syncRows_sha {ino : Nat} {row : SyncRows} (h : v.syncRows sync ino = .ok row) :
    ∀ chunk ∈ row.chunks, ∀ sha ∈ chunk.sha256, ∃ e ∈ sync.snapshotChunks, e.2.entry.sha256 = sha := by
  unfold syncRows at h
  simp only at h
  intro chunk hchunk sha hsha
  split at h
  · split at h
    · cases h
      cases mem_singleton.mp hchunk
      cases hsha
    · split at h <;> cases h
      cases mem_singleton.mp hchunk
      cases hsha
  · cases h
    obtain ⟨c, hc, rfl⟩ := mem_map.mp hchunk
    obtain ⟨e, he, rfl⟩ := mem_map.mp hc
    refine ⟨e, (mem_filter.mp he).1, ?_⟩
    have hsome : sync.chunkSha v.config.maxInlineLen ino e.2 = some sha := hsha
    obtain ⟨-, hsome⟩ := Option.ite_none_left_eq_some.mp hsome
    exact Option.some.inj hsome

/-- The rows of an inode fail only if a chunk of the snapshot cannot be read. -/
theorem syncRows_error {ino : Nat} {err : SyncError} (h : v.syncRows sync ino = .error err) :
    ∃ e ∈ sync.snapshotChunks, v.readStagedChunkBytes e.2 = none := by
  unfold syncRows at h
  simp only at h
  split at h
  · split at h
    · cases h
    case h_2 chunk hfound =>
      split at h
      case h_1 hnone =>
        obtain ⟨e, he, rfl⟩ := mem_map.mp (mem_of_find?_eq_some hfound)
        exact ⟨e, (mem_filter.mp he).1, hnone⟩
      · cases h
  · cases h

theorem Sound.dropCommitted (h : v.Sound) (chunks : List StagedEntry) : Stages E v (chunks.foldl dropCommitted v) := by
  refine h.foldl (fun e w h' => ?_) chunks
  unfold Volume.dropCommitted
  split
  · exact h'.dropStagedChunkLocked e.1.1 e.1.2
  · exact .refl h'

theorem Sound.finishSync (h : v.Sound) (sync : Sync) (err : Option SyncError) :
    Evolves (fun _ => True) v (v.finishSync sync err) ∧ (v.finishSync sync err).sync = none := by
  have hnone : Evolves (fun _ => True) v { v with sync := none } := h.with_metadata
  cases err with
  | some e => exact ⟨hnone, rfl⟩
  | none =>
    have hevict : Stages (fun _ => True) { v with sync := none } _ :=
      hnone.1.evict fun (_ : Volume.Pressed _ 0) _ _ => trivial
    obtain ⟨hevolves, hsync⟩ := hevict.trans fun h' => h'.dropCommitted sync.snapshotChunks
    exact ⟨hnone.trans fun _ => hevolves, hsync⟩

def Moves (E : Nat → Prop) (v : Volume) (sync : Sync) (v' : Volume) : Prop :=
  ∃ phase, v'.sync = some { sync with phase } ∧ Evolves E v v' ∧ v'.SyncSound { sync with phase } ∧
    Transition v sync v' phase

theorem Evolves.moves (hsync : v.SyncSound sync) (hevolves : Evolves E v w) {phase : SyncPhase}
    (hsub : ∀ p ∈ packIDs phase, p ∈ packIDs sync.phase)
    (hstored : ∀ p rest, phase = .stored p true rest → w.InBackend p)
    (ht : Transition v sync (w.setPhase sync phase) phase) : Moves E v sync (w.setPhase sync phase) := by
  have hset : Evolves E v (w.setPhase sync phase) := hevolves.trans fun h' => h'.setPhase sync phase
  refine ⟨phase, rfl, hset, ⟨fun p hp => ?_, hstored⟩, ht⟩
  exact hset.2.settled p (hsync.settled p (hsub p hp))

theorem Evolves.movesToFinish (hsync : v.SyncSound sync) (hevolves : Evolves E v w) {err : Option SyncError}
    (herr : err = some .stagedPackNotFound → ∃ inodes rows, sync.phase = .appending inodes rows ∧
        ∃ e ∈ sync.snapshotChunks, v.readStagedChunkBytes e.2 = none) :
    Moves E v sync (w.setPhase sync (.finishing err)) :=
  hevolves.moves hsync nofun nofun (.finish herr)

section

variable (h : v.Sound) (hsync : v.SyncSound sync)
include h hsync

theorem Sound.nextPack {ids : List Nat} (hphase : sync.phase = .uploading ids)
    (hstep : v.nextPack sync ids = some v') : Moves E v sync v' := by
  unfold Volume.nextPack at hstep
  cases ids with
  | nil =>
    simp only at hstep
    split at hstep <;> cases hstep
    · exact (Evolves.refl h).moves hsync nofun nofun (.load hphase)
    · exact (Evolves.refl h).movesToFinish hsync nofun
  | cons p rest =>
    have hrest (q) (hq : q ∈ rest) : q ∈ packIDs sync.phase := by
      rw [hphase]
      exact mem_cons_of_mem p hq
    have hp : v.Settled p := hsync.settled p (by rw [hphase]; exact mem_cons_self)
    simp only at hstep
    split at hstep
    case isFalse hblob =>
      cases hstep
      have hstate : Evolves E v (v.setState p .uploaded) := h.setState hp fun hblob' => absurd hblob' hblob
      exact hstate.moves hsync hrest nofun (.skip hphase fun hblob' => absurd hblob' hblob)
    case isTrue hblob =>
      split at hstep
      case h_1 hnone =>
        cases hstep
        refine (Evolves.refl h).moves hsync hrest nofun (.skip hphase fun _ info hinfo => ?_)
        exact nomatch hnone.symm.trans hinfo
      case h_2 info hinfo =>
        split at hstep
        · cases hstep
        case h_2 hstate =>
          cases hstep
          refine (Evolves.refl h).moves hsync hrest nofun (.skip hphase fun _ info' hinfo' => ?_)
          obtain rfl := Option.some.inj (hinfo.symm.trans hinfo')
          exact hstate
        · cases hstep
          refine (Evolves.refl h).moves hsync ?_ nofun (.store hphase)
          rw [hphase]
          exact fun _ hq => hq

theorem Sound.packDone {ok : Bool} {rest : List Nat}
    (hphase : sync.phase = .stored p ok rest) : Moves E v sync (v.packDone sync p ok rest) := by
  have hp : v.Settled p := hsync.settled p (by rw [hphase]; exact mem_cons_self)
  cases ok with
  | false =>
    have hstate : Evolves E v (v.setState p .failed) := h.setState hp nofun
    exact hstate.movesToFinish hsync nofun
  | true =>
    have hstate : Evolves E v (v.setState p .uploaded) := h.setState hp fun _ _ => hsync.stored p rest hphase
    refine hstate.moves hsync ?_ nofun (.next hphase)
    rw [hphase]
    exact fun q hq => mem_cons_of_mem p hq

theorem Sound.storePack {ok : Bool} {rest : List Nat}
    (hphase : sync.phase = .storing p rest) :
    Moves E v sync ((v.uploadPackFile p ok).1.setPhase sync (.stored p (v.uploadPackFile p ok).2 rest)) := by
  obtain ⟨hstages, -, hstored⟩ := h.uploadPackFile (E := E) p ok
  generalize v.uploadPackFile p ok = uploaded at hstages hstored
  refine hstages.1.moves hsync ?_ ?_ (.stored hphase hstored)
  · rw [hphase]
    exact fun q hq => hq
  · intro q rest' heq
    obtain ⟨rfl, hok, -⟩ := SyncPhase.stored.inj heq
    exact hstored hok

theorem Sound.appendInode {inodes : List Nat} {rows : List SyncRows}
    (hphase : sync.phase = .appending inodes rows) (ino : Nat) (ok : Bool) :
    Moves E v sync (v.appendInode sync inodes rows ino ok) := by
  unfold Volume.appendInode
  cases hrows : v.syncRows sync ino with
  | error e => exact (Evolves.refl h).movesToFinish hsync fun _ => ⟨inodes, rows, hphase, syncRows_error hrows⟩
  | ok row =>
    simp only
    split
    · exact (Evolves.refl h).moves hsync nofun nofun (.row hphase hrows)
    · exact (Evolves.refl h).movesToFinish hsync nofun

theorem Sound.commit (rows : List SyncRows) (fault : Option CommitStep) : Moves E v sync (v.commit sync rows fault) := by
  unfold Volume.commit
  split
  · exact (Evolves.refl h).movesToFinish hsync nofun
  · have hinodes : ∀ inodes, Evolves E v { v with inodes } := fun _ => h.with_metadata
    refine (hinodes _).movesToFinish hsync fun herr => ?_
    split at herr <;> cases herr

/-- Every step of a sync is one of these, until it ends. -/
theorem Sound.stepSync {e : SyncEvent} (hstep : stepSync sync v e = some v') :
    (∃ err, v' = v.finishSync sync err) ∨ Moves E v sync v' := by
  revert hstep
  fun_cases Volume.stepSync sync v e with
  | case1 p rest hphase _ =>
    rintro ⟨⟩
    exact .inr ((Evolves.refl h).movesToFinish hsync nofun)
  | case4 ids hphase => exact fun hstep => .inr (h.nextPack hsync hphase hstep)
  | case6 ok p rest hphase =>
    rintro ⟨⟩
    exact .inr (h.storePack hsync hphase)
  | case8 p ok rest hphase =>
    rintro ⟨⟩
    exact .inr (h.packDone hsync hphase)
  | case10 ino ok inodes rows hphase =>
    rintro ⟨⟩
    exact .inr (h.appendInode hsync hphase ino ok)
  | case13 fault rows hphase =>
    rintro ⟨⟩
    exact .inr (h.commit hsync rows fault)
  | case15 err hphase =>
    rintro ⟨⟩
    exact .inl ⟨err, rfl⟩
  | case2 | case3 | case5 | case7 | case9 | case11 | case12 | case14 | case16 => nofun

end

/-! Events. -/

/-- The packs are sound, and what a sync that runs knows of them. -/
structure Running (v : Volume) : Prop where
  sound : v.Sound
  syncSound : ∀ sync ∈ v.sync, v.SyncSound sync

/-- What an event does to the sync. -/
inductive Progress (E : Nat → Prop) (v v' : Volume) : Prop
  | beside (hlater : Later E v v') (hsync : v'.sync = v.sync)
  | starts {sync : Sync} (hsync : v'.sync = some sync) (hstart : Starts v' sync)
  | moves {sync : Sync} {phase : SyncPhase} (hsome : v.sync = some sync) (hlater : Later (fun _ => False) v v')
      (hsync : v'.sync = some { sync with phase }) (ht : Transition v sync v' phase)
  | ends (hsync : v'.sync = none)

/-- Where space is short for a chunk that the event appends, only packs of `E` may be evicted. -/
def EvictsOnly (E : Nat → Prop) (v : Volume) : Event → Prop
  | .write ino _ chunks _ => Along (WriteCalm E) (writeChunk ino) chunks v
  | .truncate ino size order => Along (TruncateCalm E ino size) (truncateChunk ino size) order v
  | _ => True

theorem Running.stages (h : v.Running) (hstages : Stages E v v') :
    v'.Running ∧ v'.config = v.config ∧ Progress E v v' := by
  obtain ⟨⟨hsound, hlater⟩, hsync⟩ := hstages
  exact ⟨⟨hsound, fun sync hmem => hlater.syncSound (h.syncSound sync (hsync ▸ hmem))⟩, hlater.config, .beside hlater hsync⟩

theorem Running.step (h : v.Running) {e : Event} (hevicts : v.EvictsOnly E e) (hstep : v.step e = some v') :
    v'.Running ∧ v'.config = v.config ∧ Progress E v v' := by
  cases e with
  | write ino dataLength chunks size =>
    cases hstep
    exact h.stages (h.sound.writeFile size hevicts)
  | truncate ino size order =>
    cases hstep
    exact h.stages (h.sound.truncateFile hevicts)
  | drop ino =>
    cases hstep
    exact h.stages (h.sound.dropStagedChunksLocked ino)
  | setInode ino size =>
    obtain ⟨-, ⟨⟩⟩ := Option.ite_none_left_eq_some.mp hstep
    exact h.stages (h.sound.setInode ino size)
  | runUpload i result => exact h.stages (h.sound.runUpload hstep)
  | endUpload i => exact h.stages (h.sound.endUpload hstep)
  | startSync sealOk inodeFilter =>
    obtain ⟨-, ⟨⟩⟩ := Option.ite_none_left_eq_some.mp hstep
    obtain ⟨⟨hsound, hlater⟩, sync, hsync, hsyncSound, hstart⟩ := h.sound.executeSyncLocked (E := E) sealOk inodeFilter
    refine ⟨⟨hsound, fun sync' hmem => ?_⟩, hlater.config, .starts hsync hstart⟩
    cases hsync.symm.trans hmem
    exact hsyncSound
  | sync e =>
    obtain ⟨sync, hsome, hstep⟩ := Option.bind_eq_some_iff.mp hstep
    obtain ⟨err, rfl⟩ | ⟨phase, hphase, ⟨hsound, hlater⟩, hsyncSound, ht⟩ :=
      h.sound.stepSync (E := fun _ => False) (h.syncSound sync hsome) hstep
    · obtain ⟨⟨hsound, hlater⟩, hnone⟩ := h.sound.finishSync sync err
      exact ⟨⟨hsound, by simp [hnone]⟩, hlater.config, .ends hnone⟩
    · refine ⟨⟨hsound, fun sync' hmem => ?_⟩, hlater.config, .moves hsome hlater hphase ht⟩
      cases hphase.symm.trans hmem
      exact hsyncSound

theorem Running.new (config : Config) (inodes : AList fun _ : Nat => Nat) : Running { config, inodes } :=
  ⟨.new config inodes, by simp⟩

end Volume

end InClusterStorage.Controller.Packs
